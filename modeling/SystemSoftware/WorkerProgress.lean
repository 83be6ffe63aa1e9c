import SystemSoftware.StockLedger
import SystemSoftware.WorkerThreads

/-!
The readers and writers of the thread-based stock server never block each other
for good. Every mutex is handed on by the threads' steps, and `reader_n` and
`writer_n` are the numbers of threads counted in them. A thread with a mutex can
go on, and so can a counted reader once the mutexes are free; with no reader
counted the writers can, and with no writer announced everyone.
-/
namespace SystemSoftware.WorkerProgress

open StockTree WorkerThreads Transitions ThreadTally
open StockThreads (ModifyPc Stocks countOf)
open StockMap (lookup_setCount)
open StockLedger (countOf_eq_lookup)

/-- The thread has counted itself in `writer_n` and not yet out of it. -/
def Announced (t : Thread) : Bool :=
  match t.pc with
  | .tradeUp _ _ c => c = .post || c = .done
  | .tradeCall _ _ | .modifying _ => true
  | .tradeDown _ c => c = .wait || c = .count
  | _ => false

/-- The thread is between `sem_wait` and `sem_post` of `reader_n_mutex`. -/
def HoldsReader (t : Thread) : Bool :=
  match t.pc with
  | .showUp c | .showDown _ c => c = .count || c = .post
  | _ => false

def HoldsWriter (t : Thread) : Bool :=
  match t.pc with
  | .tradeUp _ _ c | .tradeDown _ c => c = .count || c = .post
  | _ => false

/-- The thread is between `sem_wait` and `sem_post` of the mutex of a node. -/
def HoldsNode (id : Int32) (t : Thread) : Bool :=
  match t.pc with
  | .modifying (.read i _ _) | .modifying (.write i _ _) | .modifying (.post i) => i = id
  | _ => false

def Found (root : Stock) (t : Thread) : Prop :=
  match t.pc with
  | .modifying (.test id _) | .modifying (.wait id _ _) | .modifying (.read id _ _) =>
    (countOf id root).isSome = true
  | _ => True

def Finished (t : Thread) : Prop := t.pc = .idle ∧ t.todo = []

def Spinning (s : Shared) (t : Thread) : Prop :=
  match t.pc with
  | .showTest => s.writer.n ≠ 0
  | .tradeUp _ _ .done => s.reader.n ≠ 0
  | _ => False

def CanStep (s : Shared) (t : Thread) : Prop := (t.next s).isSome = true ∧ ¬ Spinning s t

section Steps

variable {s s' : Shared} {t t' : Thread}

/-- What `sem_wait(&mutex); n += d; sem_post(&mutex);` keeps at every step. -/
theorem next_balance {d : ℤ} {k k' : Counter} {c c' : CountPc} (h : c.next d k = some (k', c')) :
    k'.n - d * part (fun c => c = .post ∨ c = .done) c' =
      k.n - d * part (fun c => c = .post ∨ c = .done) c ∧
    (k'.mutex : ℤ) + part (fun c => c = .count ∨ c = .post) c' =
      k.mutex + part (fun c => c = .count ∨ c = .post) c := by
  cases c with
  | wait =>
    simp only [CountPc.next] at h
    split at h
    · obtain ⟨rfl, rfl⟩ := Prod.mk.inj (Option.some.inj h)
      simp [part]
      omega
    · cases h
  | count =>
    obtain ⟨rfl, rfl⟩ := Prod.mk.inj (Option.some.inj h)
    simp [part]
  | post =>
    obtain ⟨rfl, rfl⟩ := Prod.mk.inj (Option.some.inj h)
    simp [part]
  | done => cases h

/-- One step of one thread: a counter moves with the thread's being counted, a mutex
with its being held, and the ids in the table stay. -/
structure Balanced (s : Shared) (t : Thread) (s' : Shared) (t' : Thread) : Prop where
  reading : s'.reader.n - part (Reading · = true) t' = s.reader.n - part (Reading · = true) t
  announced : s'.writer.n - part (Announced · = true) t' = s.writer.n - part (Announced · = true) t
  readerMutex : (s'.reader.mutex : ℤ) + part (HoldsReader · = true) t' =
    s.reader.mutex + part (HoldsReader · = true) t
  writerMutex : (s'.writer.mutex : ℤ) + part (HoldsWriter · = true) t' =
    s.writer.mutex + part (HoldsWriter · = true) t
  nodeMutex : ∀ id, (s'.stocks.modifyMutex id : ℤ) + part (HoldsNode id · = true) t' =
    s.stocks.modifyMutex id + part (HoldsNode id · = true) t
  ids : ∀ id, (countOf id s'.stocks.root).isSome = (countOf id s.stocks.root).isSome
  found : Found s'.stocks.root t'

/-- A step between the calls that count and lock. -/
theorem Balanced.quiet (hr : Reading t' = Reading t) (ha : Announced t' = Announced t)
    (hrm : HoldsReader t' = HoldsReader t) (hwm : HoldsWriter t' = HoldsWriter t)
    (hnm : ∀ id, HoldsNode id t' = HoldsNode id t) (hf : Found s.stocks.root t') :
    Balanced s t s t' := by
  refine ⟨?_, ?_, ?_, ?_, fun id => ?_, fun _ => rfl, hf⟩
  · rw [part, part, hr]
  · rw [part, part, ha]
  · rw [part, part, hrm]
  · rw [part, part, hwm]
  · rw [part, part, hnm]

/-- A step of a reader counting itself in or out. -/
theorem Balanced.reader {k : Counter} (hr : k.n - part (Reading · = true) t' =
      s.reader.n - part (Reading · = true) t)
    (hm : (k.mutex : ℤ) + part (HoldsReader · = true) t' =
      s.reader.mutex + part (HoldsReader · = true) t)
    (ha : Announced t' = Announced t) (hwm : HoldsWriter t' = HoldsWriter t)
    (hnm : ∀ id, HoldsNode id t' = HoldsNode id t) (hf : Found s.stocks.root t') :
    Balanced s t { s with reader := k } t' := by
  refine ⟨hr, ?_, hm, ?_, fun id => ?_, fun _ => rfl, hf⟩
  · rw [part, part, ha]
  · rw [part, part, hwm]
  · rw [part, part, hnm]

/-- A step of a writer counting itself in or out. -/
theorem Balanced.writer {k : Counter} (ha : k.n - part (Announced · = true) t' =
      s.writer.n - part (Announced · = true) t)
    (hm : (k.mutex : ℤ) + part (HoldsWriter · = true) t' =
      s.writer.mutex + part (HoldsWriter · = true) t)
    (hr : Reading t' = Reading t) (hrm : HoldsReader t' = HoldsReader t)
    (hnm : ∀ id, HoldsNode id t' = HoldsNode id t) (hf : Found s.stocks.root t') :
    Balanced s t { s with writer := k } t' := by
  refine ⟨?_, ha, ?_, hm, fun id => ?_, fun _ => rfl, hf⟩
  · rw [part, part, hr]
  · rw [part, part, hrm]
  · rw [part, part, hnm]

/-- A step inside `modify`. -/
theorem Balanced.node {stocks : Stocks} {m m' : ModifyPc} {todo : List Request}
    {returned : List Status}
    (hnm : ∀ id, (stocks.modifyMutex id : ℤ) +
        part (HoldsNode id · = true) ⟨.modifying m', todo, returned⟩ =
      s.stocks.modifyMutex id + part (HoldsNode id · = true) ⟨.modifying m, todo, returned⟩)
    (hids : ∀ id, (countOf id stocks.root).isSome = (countOf id s.stocks.root).isSome)
    (hf : Found stocks.root ⟨.modifying m', todo, returned⟩) :
    Balanced s ⟨.modifying m, todo, returned⟩ { s with stocks := stocks }
      ⟨.modifying m', todo, returned⟩ :=
  ⟨rfl, rfl, rfl, rfl, hnm, hids, hf⟩

theorem isSome_countOf_setCount (i id count : Int32) (t : Stock) :
    (countOf i (setCount id count t)).isSome = (countOf i t).isSome := by
  rw [countOf_eq_lookup, countOf_eq_lookup, lookup_setCount, Option.isSome_map, Option.isSome_map]
  split
  · rw [Option.isSome_map]
  · rfl

theorem modify_balanced {m m' : ModifyPc} {stocks : Stocks} {todo : List Request}
    {returned : List Status} (hf : Found s.stocks.root ⟨.modifying m, todo, returned⟩)
    (h : m.next s.stocks = some (stocks, m')) :
    Balanced s ⟨.modifying m, todo, returned⟩ { s with stocks := stocks }
      ⟨.modifying m', todo, returned⟩ := by
  cases m with
  | find id delta =>
    simp only [ModifyPc.next] at h
    split at h
    · obtain ⟨rfl, rfl⟩ := Prod.mk.inj (Option.some.inj h)
      exact .node (fun _ => rfl) (fun _ => rfl) trivial
    · rename_i count hcount
      obtain ⟨rfl, rfl⟩ := Prod.mk.inj (Option.some.inj h)
      exact .node (fun _ => rfl) (fun _ => rfl) (Option.isSome_iff_exists.mpr ⟨count, hcount⟩)
  | test id delta =>
    obtain ⟨count, hcount, h⟩ := Option.bind_eq_some_iff.mp h
    split at h
    · obtain ⟨rfl, rfl⟩ := Prod.mk.inj (Option.some.inj h)
      exact .node (fun _ => rfl) (fun _ => rfl) trivial
    · obtain ⟨rfl, rfl⟩ := Prod.mk.inj (Option.some.inj h)
      exact .node (fun _ => rfl) (fun _ => rfl) hf
  | wait id delta seen =>
    simp only [ModifyPc.next] at h
    split at h
    · obtain ⟨rfl, rfl⟩ := Prod.mk.inj (Option.some.inj h)
      refine .node (fun j => ?_) (fun _ => rfl) hf
      by_cases hj : j = id
      · subst hj
        simp [part, HoldsNode]
        omega
      · simp [Function.update_of_ne hj, part, HoldsNode, Ne.symm hj]
    · cases h
  | read id delta seen =>
    obtain ⟨count, -, h⟩ := Option.bind_eq_some_iff.mp h
    obtain ⟨rfl, rfl⟩ := Prod.mk.inj (Option.some.inj h)
    exact .node (fun _ => rfl) (fun _ => rfl) trivial
  | write id delta count =>
    obtain ⟨rfl, rfl⟩ := Prod.mk.inj (Option.some.inj h)
    exact .node (fun _ => rfl) (fun i => isSome_countOf_setCount i ..) trivial
  | post id =>
    obtain ⟨rfl, rfl⟩ := Prod.mk.inj (Option.some.inj h)
    refine .node (fun j => ?_) (fun _ => rfl) trivial
    by_cases hj : j = id
    · subst hj
      simp [part, HoldsNode]
    · simp [Function.update_of_ne hj, part, HoldsNode, Ne.symm hj]
  | done st => cases h

section Parts

variable {id delta : Int32} {st : Status} {c : CountPc} {todo : List Request} {returned : List Status}

theorem part_reading_up : part (Reading · = true) ⟨.showUp c, todo, returned⟩ =
    part (fun c => c = .post ∨ c = .done) c := by
  cases c <;> rfl

/-- On the way down a thread is counted until it has taken itself out. -/
theorem part_reading_down : part (Reading · = true) ⟨.showDown st c, todo, returned⟩ =
    1 - part (fun c => c = .post ∨ c = .done) c := by
  cases c <;> rfl

theorem part_announced_up : part (Announced · = true) ⟨.tradeUp id delta c, todo, returned⟩ =
    part (fun c => c = .post ∨ c = .done) c := by
  cases c <;> rfl

theorem part_announced_down : part (Announced · = true) ⟨.tradeDown st c, todo, returned⟩ =
    1 - part (fun c => c = .post ∨ c = .done) c := by
  cases c <;> rfl

theorem part_holdsReader_up : part (HoldsReader · = true) ⟨.showUp c, todo, returned⟩ =
    part (fun c => c = .count ∨ c = .post) c := by
  cases c <;> rfl

theorem part_holdsReader_down : part (HoldsReader · = true) ⟨.showDown st c, todo, returned⟩ =
    part (fun c => c = .count ∨ c = .post) c := by
  cases c <;> rfl

theorem part_holdsWriter_up : part (HoldsWriter · = true) ⟨.tradeUp id delta c, todo, returned⟩ =
    part (fun c => c = .count ∨ c = .post) c := by
  cases c <;> rfl

theorem part_holdsWriter_down : part (HoldsWriter · = true) ⟨.tradeDown st c, todo, returned⟩ =
    part (fun c => c = .count ∨ c = .post) c := by
  cases c <;> rfl

end Parts

theorem Thread.next_balanced (hf : Found s.stocks.root t) (h : t.next s = some (s', t')) :
    Balanced s t s' t' := by
  obtain ⟨pc, todo, returned⟩ := t
  cases pc with
  | idle =>
    cases todo with
    | nil => cases h
    | cons r todo =>
      obtain ⟨rfl, rfl⟩ := Prod.mk.inj (Option.some.inj h)
      cases r <;> exact .quiet rfl rfl rfl rfl (fun _ => rfl) trivial
  | showTest =>
    obtain ⟨rfl, rfl⟩ := Prod.mk.inj (Option.some.inj h)
    split <;> exact .quiet rfl rfl rfl rfl (fun _ => rfl) trivial
  | showUp c =>
    obtain ⟨rfl, rfl, rfl⟩ | ⟨k, c', hk, rfl, rfl⟩ := next_showUp h
    · exact .quiet rfl rfl rfl rfl (fun _ => rfl) trivial
    · obtain ⟨hn, hm⟩ := next_balance hk
      refine .reader ?_ ?_ rfl rfl (fun _ => rfl) trivial
      · simp only [part_reading_up]
        omega
      · simp only [part_holdsReader_up]
        exact hm
  | printing =>
    obtain ⟨rfl, rfl⟩ := Prod.mk.inj (Option.some.inj h)
    exact .quiet rfl rfl rfl rfl (fun _ => rfl) trivial
  | showDown st c =>
    obtain ⟨rfl, rfl, rfl⟩ | ⟨k, c', hk, rfl, rfl⟩ := next_showDown h
    · exact .quiet rfl rfl rfl rfl (fun _ => rfl) trivial
    · obtain ⟨hn, hm⟩ := next_balance hk
      refine .reader ?_ ?_ rfl rfl (fun _ => rfl) trivial
      · simp only [part_reading_down]
        omega
      · simp only [part_holdsReader_down]
        exact hm
  | tradeUp id delta c =>
    obtain ⟨rfl, rfl, rfl⟩ | ⟨k, c', hk, rfl, rfl⟩ := next_tradeUp h
    · split <;> exact .quiet rfl rfl rfl rfl (fun _ => rfl) trivial
    · obtain ⟨hn, hm⟩ := next_balance hk
      refine .writer ?_ ?_ rfl rfl (fun _ => rfl) trivial
      · simp only [part_announced_up]
        omega
      · simp only [part_holdsWriter_up]
        exact hm
  | tradeCall id delta =>
    obtain ⟨rfl, rfl⟩ := Prod.mk.inj (Option.some.inj h)
    exact .quiet rfl rfl rfl rfl (fun _ => rfl) trivial
  | modifying m =>
    obtain ⟨st, rfl, rfl, rfl⟩ | ⟨stocks, m', hm, rfl, rfl⟩ := next_modifying h
    · exact .quiet rfl rfl rfl rfl (fun _ => rfl) trivial
    · exact modify_balanced hf hm
  | tradeDown st c =>
    obtain ⟨rfl, rfl, rfl⟩ | ⟨k, c', hk, rfl, rfl⟩ := next_tradeDown h
    · exact .quiet rfl rfl rfl rfl (fun _ => rfl) trivial
    · obtain ⟨hn, hm⟩ := next_balance hk
      refine .writer ?_ ?_ rfl rfl (fun _ => rfl) trivial
      · simp only [part_announced_down]
        omega
      · simp only [part_holdsWriter_down]
        exact hm

theorem Found.congr {root root' : Stock}
    (hids : ∀ id, (countOf id root').isSome = (countOf id root).isSome) (hf : Found root t) :
    Found root' t := by
  obtain ⟨pc, todo, returned⟩ := t
  cases pc with
  | modifying m =>
    cases m with
    | test id _ | wait id _ _ | read id _ _ => exact (hids id).trans hf
    | _ => trivial
  | _ => trivial

/-- A thread that has a mutex can go on. -/
theorem canStep_of_holdsCounter (h : HoldsReader t = true ∨ HoldsWriter t = true) :
    CanStep s t := by
  obtain ⟨pc, todo, returned⟩ := t
  cases pc with
  | showUp c | showDown st c | tradeUp id delta c | tradeDown st c =>
    cases c with
    | count | post => exact ⟨rfl, fun h => h⟩
    | _ => rcases h with h | h <;> cases h
  | _ => rcases h with h | h <;> cases h

theorem canStep_of_holdsNode {id : Int32} (h : HoldsNode id t = true)
    (hf : Found s.stocks.root t) : CanStep s t := by
  obtain ⟨pc, todo, returned⟩ := t
  cases pc with
  | modifying m =>
    cases m with
    | read i delta seen =>
      obtain ⟨count, hcount⟩ := Option.isSome_iff_exists.mp hf
      refine ⟨?_, fun h => h⟩
      simp [Thread.next, ModifyPc.next, hcount]
    | write i delta count => exact ⟨rfl, fun h => h⟩
    | post i => exact ⟨rfl, fun h => h⟩
    | _ => cases h
  | _ => cases h

/-- With every mutex free a thread goes on unless it has finished or its test fails. -/
theorem canStep_of_free (hreader : 0 < s.reader.mutex) (hwriter : 0 < s.writer.mutex)
    (hnode : ∀ id, 0 < s.stocks.modifyMutex id) (hf : Found s.stocks.root t)
    (hunfinished : ¬ Finished t) (htest : ¬ Spinning s t) : CanStep s t := by
  refine ⟨?_, htest⟩
  obtain ⟨pc, todo, returned⟩ := t
  cases pc with
  | idle =>
    cases todo with
    | nil => exact absurd ⟨rfl, rfl⟩ hunfinished
    | cons r todo => rfl
  | showTest | printing | tradeCall id delta => rfl
  | showUp c | showDown st c =>
    cases c with
    | wait => simp [Thread.next, CountPc.next, hreader]
    | _ => rfl
  | tradeUp id delta c | tradeDown st c =>
    cases c with
    | wait => simp [Thread.next, CountPc.next, hwriter]
    | _ => rfl
  | modifying m =>
    cases m with
    | find id delta =>
      simp only [Thread.next, ModifyPc.next]
      cases countOf id s.stocks.root <;> rfl
    | test id delta =>
      obtain ⟨count, hcount⟩ := Option.isSome_iff_exists.mp hf
      simp only [Thread.next, ModifyPc.next, hcount, Option.bind_eq_bind, Option.bind_some]
      split <;> rfl
    | wait id delta seen => simp [Thread.next, ModifyPc.next, hnode id]
    | read id delta seen =>
      obtain ⟨count, hcount⟩ := Option.isSome_iff_exists.mp hf
      simp [Thread.next, ModifyPc.next, hcount]
    | _ => rfl

/-- A counted reader has no test before it. -/
theorem apart_of_reading (h : Reading t = true) : ¬ Finished t ∧ ¬ Spinning s t := by
  obtain ⟨pc, todo, returned⟩ := t
  cases pc with
  | showUp c | showDown st c => exact ⟨fun hfin => (by cases hfin.1), fun htest => htest⟩
  | printing => exact ⟨fun hfin => (by cases hfin.1), fun htest => htest⟩
  | _ => cases h

/-- An announced writer waits for readers only. -/
theorem apart_of_announced (h : Announced t = true) (hreaders : s.reader.n = 0) :
    ¬ Finished t ∧ ¬ Spinning s t := by
  obtain ⟨pc, todo, returned⟩ := t
  cases pc with
  | tradeUp id delta c =>
    refine ⟨fun hfin => (by cases hfin.1), ?_⟩
    cases c with
    | done => exact fun htest => htest hreaders
    | _ => exact fun htest => htest
  | tradeCall id delta => exact ⟨fun hfin => (by cases hfin.1), fun htest => htest⟩
  | modifying m => exact ⟨fun hfin => (by cases hfin.1), fun htest => htest⟩
  | tradeDown st c => exact ⟨fun hfin => (by cases hfin.1), fun htest => htest⟩
  | _ => cases h

theorem not_spinning (hreaders : s.reader.n = 0) (hwriters : s.writer.n = 0) :
    ¬ Spinning s t := by
  obtain ⟨pc, todo, returned⟩ := t
  cases pc with
  | showTest => exact fun htest => htest hwriters
  | tradeUp id delta c =>
    cases c with
    | done => exact fun htest => htest hreaders
    | _ => exact fun htest => htest
  | _ => exact fun htest => htest

end Steps

section Progress

variable {ι : Type} [Fintype ι] [DecidableEq ι] {s s' : State ι} {i : ι}

/-- The counters count threads, each mutex is free or held by one thread, and every
thread inside `modify` works on a node of the table. -/
structure Accounts (s : State ι) : Prop where
  readers : s.shared.reader.n = tally (Reading · = true) s.threads
  writers : s.shared.writer.n = tally (Announced · = true) s.threads
  readerMutex : (s.shared.reader.mutex : ℤ) + tally (HoldsReader · = true) s.threads = 1
  writerMutex : (s.shared.writer.mutex : ℤ) + tally (HoldsWriter · = true) s.threads = 1
  nodeMutex : ∀ id, (s.shared.stocks.modifyMutex id : ℤ) +
    tally (HoldsNode id · = true) s.threads = 1
  found : ∀ i, Found s.shared.stocks.root (s.threads i)

omit [DecidableEq ι] in
theorem accounts_started (hs : Started s) : Accounts s := by
  obtain ⟨hreader, hwriter, hnode, hidle⟩ := hs
  have hnone : ∀ p : Thread → Bool, (∀ t, t.pc = .idle → p t = false) →
      tally (p · = true) s.threads = 0 := by
    intro p hp
    apply tally_eq_zero
    intro i
    rw [hp _ (hidle i)]
    exact Bool.false_ne_true
  constructor
  · rw [hreader, hnone Reading fun t ht => by rw [Reading, ht]]
  · rw [hwriter, hnone Announced fun t ht => by rw [Announced, ht]]
  · rw [hreader, hnone HoldsReader fun t ht => by rw [HoldsReader, ht]]
    rfl
  · rw [hwriter, hnone HoldsWriter fun t ht => by rw [HoldsWriter, ht]]
    rfl
  · intro id
    rw [hnode, hnone (HoldsNode id) fun t ht => by rw [HoldsNode, ht]]
    rfl
  · intro i
    rw [Found, hidle i]
    trivial

theorem accounts_next (hs : Accounts s) (h : next s i = some s') : Accounts s' := by
  obtain ⟨⟨shared, t⟩, hnext, h⟩ := Option.bind_eq_some_iff.mp h
  obtain rfl := Option.some.inj h
  have hb := Thread.next_balanced (hs.found i) hnext
  constructor
  · have hold := hs.readers
    have hnew := hb.reading
    simp only [tally_update]
    omega
  · have hold := hs.writers
    have hnew := hb.announced
    simp only [tally_update]
    omega
  · have hold := hs.readerMutex
    have hnew := hb.readerMutex
    simp only [tally_update]
    omega
  · have hold := hs.writerMutex
    have hnew := hb.writerMutex
    simp only [tally_update]
    omega
  · intro id
    have hold := hs.nodeMutex id
    have hnew := hb.nodeMutex id
    simp only [tally_update]
    omega
  · exact (Function.forall_update_iff _ fun _ => Found shared.stocks.root).mpr
      ⟨hb.found, fun j _ => (hs.found j).congr hb.ids⟩

theorem reachable_accounts (hs : runs.Reachable s) : Accounts s := by
  apply hs.invariant
  · intro t ht
    exact accounts_started ht
  · intro t i t' ht h
    exact accounts_next ht h

omit [DecidableEq ι] in
/-- Some thread goes on as long as one has not finished. -/
theorem exists_canStep (hs : Accounts s) (hi : ¬ Finished (s.threads i)) :
    ∃ j, CanStep s.shared (s.threads j) := by
  by_contra hstuck
  rw [not_exists] at hstuck
  -- No thread has a mutex, so that all of them are free.
  have hreader : 0 < s.shared.reader.mutex :=
    pos_of_tally hs.readerMutex fun j hj => hstuck j (canStep_of_holdsCounter (Or.inl hj))
  have hwriter : 0 < s.shared.writer.mutex :=
    pos_of_tally hs.writerMutex fun j hj => hstuck j (canStep_of_holdsCounter (Or.inr hj))
  have hnode : ∀ id, 0 < s.shared.stocks.modifyMutex id := fun id =>
    pos_of_tally (hs.nodeMutex id) fun j hj => hstuck j (canStep_of_holdsNode hj (hs.found j))
  have hwaits : ∀ j, ¬ (¬ Finished (s.threads j) ∧ ¬ Spinning s.shared (s.threads j)) :=
    fun j hj => hstuck j (canStep_of_free hreader hwriter hnode (hs.found j) hj.1 hj.2)
  -- So no reader is counted, and with none no writer is announced.
  have hreaders : s.shared.reader.n = 0 := by
    rw [hs.readers]
    exact tally_eq_zero fun j hj => hwaits j (apart_of_reading hj)
  have hwriters : s.shared.writer.n = 0 := by
    rw [hs.writers]
    exact tally_eq_zero fun j hj => hwaits j (apart_of_announced hj hreaders)
  exact hwaits i ⟨hi, not_spinning hreaders hwriters⟩

/-- In every reachable state the counters are the numbers of threads counted in them,
and some thread has a step to take, other than a test that fails, until all threads
have finished. -/
theorem no_deadlock (hs : runs.Reachable s) :
    s.shared.reader.n = tally (Reading · = true) s.threads ∧
    s.shared.writer.n = tally (Announced · = true) s.threads ∧
    0 ≤ s.shared.reader.n ∧ 0 ≤ s.shared.writer.n ∧
    ((∃ i, ¬ Finished (s.threads i)) →
      ∃ j s', next s j = some s' ∧ ¬ Spinning s.shared (s.threads j)) := by
  have hacc := reachable_accounts hs
  refine ⟨hacc.readers, hacc.writers, ?_, ?_, ?_⟩
  · rw [hacc.readers]
    exact tally_nonneg _
  · rw [hacc.writers]
    exact tally_nonneg _
  · rintro ⟨i, hi⟩
    obtain ⟨j, hstep, htest⟩ := exists_canStep hacc hi
    obtain ⟨⟨shared, t⟩, hnext⟩ := Option.isSome_iff_exists.mp hstep
    exact ⟨j, ⟨shared, Function.update s.threads j t⟩, by rw [next, hnext]; rfl, htest⟩

end Progress

/-- The writer has announced itself between the reader's call and its test: the reader
waits, and the writer goes on. -/
theorem no_deadlock_waiting : ∃ s, System.perform next (fun _ _ => True) twoClients
      [true, false, false, false, false] = some s ∧ Spinning s.shared (s.threads true) ∧
    ∃ j s', next s j = some s' ∧ ¬ Spinning s.shared (s.threads j) := by
  have hrun : (System.perform next (fun _ _ => True) twoClients
      [true, false, false, false, false]).map (fun s => ((s.threads true).pc, s.shared.writer.n)) =
      some (.showTest, 1) := by decide
  obtain ⟨s, hs, hread⟩ := Option.map_eq_some_iff.mp hrun
  obtain ⟨hpc, hn⟩ := Prod.mk.inj hread
  have hstart : (runs.guarded fun _ _ => True).Reachable twoClients := .initial twoClients_started
  refine ⟨s, hs, ?_, (no_deadlock (hstart.perform hs).of_guarded).2.2.2.2 ⟨true, ?_⟩⟩
  · rw [Spinning, hpc, hn]
    exact one_ne_zero
  · rintro ⟨hidle, -⟩
    rw [hpc] at hidle
    cases hidle

end SystemSoftware.WorkerProgress
