import SystemSoftware.ConnectionQueue
import SystemSoftware.ThreadTally
import SystemSoftware.Transitions
import Mathlib.Data.List.ReduceOption

/-!
One thread that inserts connections and any number of workers that remove them.
The semaphores keep at most one thread at the ring, the inserter at most n items
ahead and the workers behind it, so that the slots between hold the items that
have not been taken yet. A worker that has entered the critical section takes
the item whose number is that of its entry.
-/
namespace SystemSoftware.QueueRuns

open ConnectionQueue Transitions ThreadTally

/-- `inserted` lists the items whose insertion has returned. `entries` has a place
for each entry of a worker into the critical section of `sbuf_remove`, in the
order of entering, which is filled in as soon as the worker has copied both
fields; `ticket` is the place of a worker's last entry. -/
structure State (ι A : Type) where
  buf : Sbuf A
  inserter : Option (Waiting A × InsertPc)
  workers : ι → Option (RemovePc A)
  inserted : List (Waiting A)
  entries : List (Option (Waiting A))
  ticket : ι → ℕ

inductive Action (ι A : Type)
  | insert (w : Waiting A)
  | insertStep
  | remove (i : ι)
  | removeStep (i : ι)
  | ret (i : ι)

section Runs

variable {ι A : Type} [DecidableEq ι]

def note (s : State ι A) (i : ι) : RemovePc A → State ι A
  | .bump =>
    { s with
      entries := s.entries ++ [none]
      ticket := Function.update s.ticket i s.entries.length }
  | .postMutex w => { s with entries := s.entries.set (s.ticket i) (some w) }
  | _ => s

def next (s : State ι A) : Action ι A → Option (State ι A)
  | .insert w =>
    match s.inserter with
    | none => some { s with inserter := some (w, .waitEmpty) }
    | some _ => none
  | .insertStep => do
    let (w, pc) ← s.inserter
    let (buf, pc) ← pc.next w s.buf
    if pc = .done then
      some { s with buf := buf, inserter := none, inserted := s.inserted ++ [w] }
    else some { s with buf := buf, inserter := some (w, pc) }
  | .remove i =>
    match s.workers i with
    | none => some { s with workers := Function.update s.workers i (some .waitItems) }
    | some _ => none
  | .removeStep i => do
    let pc ← s.workers i
    let (buf, pc) ← pc.next s.buf
    some (note { s with buf := buf, workers := Function.update s.workers i (some pc) } i pc)
  | .ret i =>
    match s.workers i with
    | some (.done _) => some { s with workers := Function.update s.workers i none }
    | _ => none

inductive Moves (s : State ι A) : Action ι A → State ι A → Prop
  | insert (w : Waiting A) (hidle : s.inserter = none) :
      Moves s (.insert w) { s with inserter := some (w, .waitEmpty) }
  | inserting {w : Waiting A} {pc pc' : InsertPc} {buf : Sbuf A} (hinserter : s.inserter = some (w, pc))
      (hnext : pc.next w s.buf = some (buf, pc')) (hdone : pc' ≠ .done) :
      Moves s .insertStep { s with buf := buf, inserter := some (w, pc') }
  | inserted {w : Waiting A} {pc : InsertPc} {buf : Sbuf A} (hinserter : s.inserter = some (w, pc))
      (hnext : pc.next w s.buf = some (buf, .done)) :
      Moves s .insertStep
        { s with buf := buf, inserter := none, inserted := s.inserted ++ [w] }
  | remove {i : ι} (hidle : s.workers i = none) :
      Moves s (.remove i) { s with workers := Function.update s.workers i (some .waitItems) }
  | removeStep {i : ι} {pc pc' : RemovePc A} {buf : Sbuf A} (hworker : s.workers i = some pc)
      (hnext : pc.next s.buf = some (buf, pc')) :
      Moves s (.removeStep i)
        (note { s with buf := buf, workers := Function.update s.workers i (some pc') } i pc')
  | ret {i : ι} {w : Waiting A} (hdone : s.workers i = some (.done w)) :
      Moves s (.ret i) { s with workers := Function.update s.workers i none }

theorem moves_of_next {s s' : State ι A} {a : Action ι A} (h : next s a = some s') :
    Moves s a s' := by
  cases a with
  | insert w =>
    simp only [next] at h
    split at h
    · next hidle => exact Option.some.inj h ▸ .insert w hidle
    · cases h
  | insertStep =>
    simp only [next, Option.bind_eq_bind, Option.bind_eq_some_iff] at h
    obtain ⟨⟨w, pc⟩, hinserter, ⟨buf, pc'⟩, hnext, h⟩ := h
    by_cases hdone : pc' = .done
    · subst hdone
      rw [if_pos rfl] at h
      exact Option.some.inj h ▸ .inserted hinserter hnext
    · rw [if_neg hdone] at h
      exact Option.some.inj h ▸ .inserting hinserter hnext hdone
  | remove i =>
    simp only [next] at h
    split at h
    · next hidle => exact Option.some.inj h ▸ .remove hidle
    · cases h
  | removeStep i =>
    simp only [next, Option.bind_eq_bind, Option.bind_eq_some_iff] at h
    obtain ⟨pc, hworker, ⟨buf, pc'⟩, hnext, h⟩ := h
    exact Option.some.inj h ▸ .removeStep hworker hnext
  | ret i =>
    simp only [next] at h
    split at h
    · next hdone => exact Option.some.inj h ▸ .ret hdone
    · cases h

def Started (n : Int32) (s : State ι A) : Prop :=
  (∃ slots, s.buf = mutexInit slots n) ∧ s.inserter = none ∧ (∀ i, s.workers i = none) ∧
    s.inserted = [] ∧ s.entries = []

def runs (ι A : Type) [DecidableEq ι] (n : Int32) : System (State ι A) (Action ι A) :=
  System.ofNext (Started n) next

def calls (s : State ι A) : ℕ := s.inserted.length + s.inserter.toList.length

/-- The items taken out, in the order in which their workers have entered. -/
def taken (s : State ι A) : List (Waiting A) := s.entries.reduceOption

end Runs

section Places

variable {A : Type}

/-- An inserter that has waited for its slot. -/
def Claimed : Option (Waiting A × InsertPc) → Bool
  | none | some (_, .waitEmpty) | some (_, .done) => false
  | _ => true

/-- An inserter between its wait for the mutex and its post. -/
def Inserting : Option (Waiting A × InsertPc) → Bool
  | some (_, .bump) | some (_, .putConnfd _) | some (_, .putAddr) | some (_, .postMutex) => true
  | _ => false

/-- An inserter that has counted rear up. -/
def Bumped : Option (Waiting A × InsertPc) → Bool
  | some (_, .putConnfd _) | some (_, .putAddr) | some (_, .postMutex) | some (_, .postItems) => true
  | _ => false

/-- A worker that has waited for its item and not yet for the mutex. -/
def Queueing : Option (RemovePc A) → Bool
  | some .waitMutex => true
  | _ => false

/-- A worker that is about to count front up. -/
def Bumping : Option (RemovePc A) → Bool
  | some .bump => true
  | _ => false

/-- A worker that has not copied both fields yet. -/
def Reading : Option (RemovePc A) → Bool
  | some .bump | some (.getConnfd _) | some (.getAddr _) => true
  | _ => false

/-- A worker between its wait for the mutex and its post. -/
def Removing : Option (RemovePc A) → Bool
  | some .bump | some (.getConnfd _) | some (.getAddr _) | some (.postMutex _) => true
  | _ => false

/-- A worker that has entered and not yet given its slot back. -/
def Taking : Option (RemovePc A) → Bool
  | some .bump | some (.getConnfd _) | some (.getAddr _) | some (.postMutex _)
  | some (.postEmpty _) => true
  | _ => false

theorem removing_of_reading {x : Option (RemovePc A)} (h : Reading x = true) : Removing x = true := by
  rcases x with - | pc
  · cases h
  · cases pc <;> first | rfl | cases h

theorem taking_of_reading {x : Option (RemovePc A)} (h : Reading x = true) : Taking x = true := by
  rcases x with - | pc
  · cases h
  · cases pc <;> first | rfl | cases h

theorem claimed_of_bumped {x : Option (Waiting A × InsertPc)} (h : Bumped x = true) :
    Claimed x = true := by
  rcases x with - | ⟨w, pc⟩
  · cases h
  · cases pc <;> first | rfl | cases h

theorem reading_of_bumping {x : Option (RemovePc A)} (h : Bumping x = true) : Reading x = true := by
  rcases x with - | pc
  · cases h
  · cases pc <;> first | rfl | cases h

/-- What an inserter has computed or written, for the item number I + 1. -/
def Writes (n : Int32) (slots : Int32 → Waiting A) (I : ℕ) : Option (Waiting A × InsertPc) → Prop
  | some (_, .putConnfd slot) => slot = slotOf n (I + 1)
  | some (w, .putAddr) => (slots (slotOf n (I + 1))).connfd = w.connfd
  | some (w, .postMutex) | some (w, .postItems) => slots (slotOf n (I + 1)) = w
  | _ => True

/-- What a worker with a ticket has computed or copied. -/
def Reads (n : Int32) (inserted : List (Waiting A)) (ticket : ℕ) : Option (RemovePc A) → Prop
  | some (.getConnfd slot) => slot = slotOf n (ticket + 1)
  | some (.getAddr connfd) => ∃ w, inserted[ticket]? = some w ∧ w.connfd = connfd
  | _ => True

end Places

section Invariant

variable {ι A : Type} [Fintype ι]

/-- The slots in use: from the moment the inserter counts rear up until a worker
has copied both fields. -/
def held (s : State ι A) : ℤ :=
  s.inserted.length + part (Bumped · = true) s.inserter - (taken s).length

structure Counts (n : Int32) (s : State ι A) : Prop where
  size : s.buf.n = n
  mutex : (s.buf.mutex : ℤ) + part (Inserting · = true) s.inserter +
    tally (Removing · = true) s.workers = 1
  items : (s.buf.items : ℤ) + tally (Queueing · = true) s.workers + s.entries.length =
    s.inserted.length
  empty : (s.buf.emptySlots : ℤ) + s.inserted.length + part (Claimed · = true) s.inserter =
    n.toInt + s.entries.length - tally (Taking · = true) s.workers
  rear : s.buf.rear.toInt = s.inserted.length + part (Bumped · = true) s.inserter
  front : s.buf.front.toInt + tally (Bumping · = true) s.workers = s.entries.length
  front_nonneg : 0 ≤ s.buf.front.toInt

structure Contents (s : State ι A) : Prop where
  slots : ∀ (k : ℕ) (w : Waiting A), s.inserted[k]? = some w → s.entries[k]?.join = none →
    s.buf.slots (slotOf s.buf.n (k + 1)) = w
  copied : ∀ (k : ℕ) (w : Waiting A), s.entries[k]? = some (some w) → s.inserted[k]? = some w
  missing : ∀ k : ℕ, s.entries[k]? = some none → ∃ i, Reading (s.workers i) = true ∧ s.ticket i = k
  last : ∀ i, Reading (s.workers i) = true →
    s.ticket i + 1 = s.entries.length ∧ s.entries[s.ticket i]? = some none
  reads : ∀ i, Reads s.buf.n s.inserted (s.ticket i) (s.workers i)
  writes : Writes s.buf.n s.buf.slots s.inserted.length s.inserter

structure Invariant (n : Int32) (s : State ι A) : Prop where
  counts : Counts n s
  contents : Contents s

end Invariant

section Effects

variable {A : Type} {b b' : Sbuf A}

/-- What a step of an inserter does to the semaphores and the index. -/
structure InsertEffect (w : Waiting A) (b : Sbuf A) (pc : InsertPc) (b' : Sbuf A) (pc' : InsertPc) :
    Prop where
  size : b'.n = b.n
  front : b'.front = b.front
  mutex : (b'.mutex : ℤ) + part (Inserting · = true) (some (w, pc')) =
    b.mutex + part (Inserting · = true) (some (w, pc))
  items : (b'.items : ℤ) = b.items + part (· = .done) pc'
  empty : (b'.emptySlots : ℤ) + part (· = .done) pc' + part (Claimed · = true) (some (w, pc')) =
    b.emptySlots + part (Claimed · = true) (some (w, pc))
  rear : 0 ≤ b.rear.toInt →
    (part (Bumped · = true) (some (w, pc)) = 0 → b.rear.toInt + 1 < 2 ^ 31) →
    b'.rear.toInt = b.rear.toInt + part (· = .done) pc' + part (Bumped · = true) (some (w, pc')) -
      part (Bumped · = true) (some (w, pc))

theorem insert_effect {w : Waiting A} {pc pc' : InsertPc} (h : pc.next w b = some (b', pc')) :
    InsertEffect w b pc b' pc' := by
  cases pc with
  | waitEmpty =>
    simp only [InsertPc.next] at h
    split at h
    · obtain ⟨rfl, rfl⟩ := Prod.mk.inj (Option.some.inj h)
      refine ⟨rfl, rfl, rfl, rfl, ?_, fun _ _ => ?_⟩ <;> simp [part, Claimed, Bumped]
      omega
    · cases h
  | waitMutex =>
    simp only [InsertPc.next] at h
    split at h
    · obtain ⟨rfl, rfl⟩ := Prod.mk.inj (Option.some.inj h)
      refine ⟨rfl, rfl, ?_, rfl, rfl, fun _ _ => ?_⟩ <;> simp [part, Inserting, Bumped]
      omega
    · cases h
  | bump =>
    obtain ⟨rfl, rfl⟩ := Prod.mk.inj (Option.some.inj h)
    refine ⟨rfl, rfl, rfl, rfl, rfl, fun hr hlt => (toInt_succ hr (hlt rfl)).trans ?_⟩
    simp [part, Bumped]
  | putConnfd slot =>
    obtain ⟨rfl, rfl⟩ := Prod.mk.inj (Option.some.inj h)
    refine ⟨rfl, rfl, rfl, rfl, rfl, fun _ _ => ?_⟩
    simp [part, Bumped]
  | putAddr =>
    obtain ⟨rfl, rfl⟩ := Prod.mk.inj (Option.some.inj h)
    refine ⟨rfl, rfl, rfl, rfl, rfl, fun _ _ => ?_⟩
    simp [part, Bumped]
  | postMutex =>
    obtain ⟨rfl, rfl⟩ := Prod.mk.inj (Option.some.inj h)
    refine ⟨rfl, rfl, ?_, rfl, rfl, fun _ _ => ?_⟩ <;> simp [part, Inserting, Bumped]
  | postItems =>
    obtain ⟨rfl, rfl⟩ := Prod.mk.inj (Option.some.inj h)
    refine ⟨rfl, rfl, rfl, ?_, ?_, fun _ _ => ?_⟩ <;> simp [part, Claimed, Bumped]
  | done => cases h

/-- What a step of a worker does to the semaphores and the index. -/
structure RemoveEffect (b : Sbuf A) (pc : RemovePc A) (b' : Sbuf A) (pc' : RemovePc A) : Prop where
  size : b'.n = b.n
  rear : b'.rear = b.rear
  slots : b'.slots = b.slots
  mutex : (b'.mutex : ℤ) + part (Removing · = true) (some pc') =
    b.mutex + part (Removing · = true) (some pc)
  items : (b'.items : ℤ) + part (Queueing · = true) (some pc') + part (Bumping · = true) (some pc') =
    b.items + part (Queueing · = true) (some pc)
  empty : (b'.emptySlots : ℤ) + part (Taking · = true) (some pc') =
    b.emptySlots + part (Taking · = true) (some pc) + part (Bumping · = true) (some pc')
  front : 0 ≤ b.front.toInt →
    (part (Bumping · = true) (some pc) = 1 → b.front.toInt + 1 < 2 ^ 31) →
    b'.front.toInt = b.front.toInt + part (Bumping · = true) (some pc)

theorem remove_effect {pc pc' : RemovePc A} (h : pc.next b = some (b', pc')) :
    RemoveEffect b pc b' pc' := by
  cases pc with
  | waitItems =>
    simp only [RemovePc.next] at h
    split at h
    · obtain ⟨rfl, rfl⟩ := Prod.mk.inj (Option.some.inj h)
      refine ⟨rfl, rfl, rfl, rfl, ?_, rfl, fun _ _ => ?_⟩ <;> simp [part, Queueing, Bumping]
      omega
    · cases h
  | waitMutex =>
    simp only [RemovePc.next] at h
    split at h
    · obtain ⟨rfl, rfl⟩ := Prod.mk.inj (Option.some.inj h)
      refine ⟨rfl, rfl, rfl, ?_, ?_, ?_, fun _ _ => ?_⟩ <;>
        simp [part, Queueing, Removing, Taking, Bumping]
      omega
    · cases h
  | bump =>
    obtain ⟨rfl, rfl⟩ := Prod.mk.inj (Option.some.inj h)
    exact ⟨rfl, rfl, rfl, rfl, rfl, rfl, fun hr hlt => toInt_succ hr (hlt rfl)⟩
  | getConnfd slot =>
    obtain ⟨rfl, rfl⟩ := Prod.mk.inj (Option.some.inj h)
    exact ⟨rfl, rfl, rfl, rfl, rfl, rfl, fun _ _ => (add_zero _).symm⟩
  | getAddr connfd =>
    obtain ⟨rfl, rfl⟩ := Prod.mk.inj (Option.some.inj h)
    exact ⟨rfl, rfl, rfl, rfl, rfl, rfl, fun _ _ => (add_zero _).symm⟩
  | postMutex w =>
    obtain ⟨rfl, rfl⟩ := Prod.mk.inj (Option.some.inj h)
    refine ⟨rfl, rfl, rfl, ?_, rfl, rfl, fun _ _ => (add_zero _).symm⟩
    simp [part, Removing]
  | postEmpty w =>
    obtain ⟨rfl, rfl⟩ := Prod.mk.inj (Option.some.inj h)
    refine ⟨rfl, rfl, rfl, rfl, rfl, ?_, fun _ _ => (add_zero _).symm⟩
    simp [part, Taking, Bumping]
  | done w => cases h

end Effects

section Insert

variable {ι A : Type} [Fintype ι] {n : Int32} {s : State ι A} {w : Waiting A}

omit [Fintype ι] in
/-- A step of the inserter that leaves the ring and the items as they are. -/
theorem Contents.inserter (hs : Contents s) {b : Sbuf A} {y : Option (Waiting A × InsertPc)}
    (hslots : b.slots = s.buf.slots) (hn : b.n = s.buf.n)
    (hwrites : Writes b.n b.slots s.inserted.length y) :
    Contents { s with buf := b, inserter := y } := by
  refine ⟨?_, hs.copied, hs.missing, hs.last, fun i => ?_, hwrites⟩
  · simp only [hslots, hn]
    exact hs.slots
  · simp only [hn]
    exact hs.reads i

/-- While the inserter is at the ring, every entry has its item. -/
theorem Invariant.entries_le (hs : Invariant n s) (hinside : Inserting s.inserter = true) {k : ℕ}
    (hk : s.entries[k]?.join = none) : s.entries.length ≤ k := by
  by_contra hlt
  have hget : s.entries[k]? = some s.entries[k] := List.getElem?_eq_getElem (not_le.mp hlt)
  have hnone : s.entries[k] = none := by
    rw [hget] at hk
    exact hk
  obtain ⟨i, hi, -⟩ := hs.contents.missing k (hnone ▸ hget)
  have hmutex := hs.counts.mutex
  rw [part_of (p := (Inserting · = true)) hinside] at hmutex
  have hzero : tally (Removing · = true) s.workers = 0 := by
    have := tally_nonneg (p := (Removing · = true)) s.workers
    omega
  exact not_of_tally_eq_zero hzero i (removing_of_reading hi)

theorem Counts.insertStep (hs : Counts n s) {pc pc' : InsertPc} {b : Sbuf A}
    (hi : s.inserter = some (w, pc)) (hlt : s.inserted.length + 1 < 2 ^ 31)
    (h : InsertEffect w s.buf pc b pc') :
    Counts n (if pc' = .done then
      { s with buf := b, inserter := none, inserted := s.inserted ++ [w] }
    else { s with buf := b, inserter := some (w, pc') }) := by
  obtain ⟨hsize, hmutex, hitems, hempty, hrear, hfront, hnonneg⟩ := hs
  obtain ⟨esize, efront, emutex, eitems, eempty, erear⟩ := h
  rw [hi] at hmutex hempty hrear
  have hpart : 0 ≤ part (Bumped · = true) (some (w, pc)) ∧
      part (Bumped · = true) (some (w, pc)) ≤ 1 := by
    rw [part]
    split <;> decide
  have hrear' := erear (by omega) (by omega)
  by_cases hdone : pc' = .done
  · subst hdone
    rw [if_pos rfl]
    have hone : part (· = InsertPc.done) .done = 1 := part_of rfl
    refine ⟨esize.trans hsize, ?_, ?_, ?_, ?_, efront ▸ hfront, efront ▸ hnonneg⟩
    all_goals simp only [List.length_append, List.length_singleton, Nat.cast_add]
    · have hnone : part (Inserting · = true) (none : Option (Waiting A × InsertPc)) =
          part (Inserting · = true) (some (w, .done)) := rfl
      omega
    · omega
    · have hnone : part (Claimed · = true) (none : Option (Waiting A × InsertPc)) =
          part (Claimed · = true) (some (w, .done)) := rfl
      omega
    · have hnone : part (Bumped · = true) (none : Option (Waiting A × InsertPc)) =
          part (Bumped · = true) (some (w, .done)) := rfl
      omega
  · rw [if_neg hdone]
    have hzero : part (· = InsertPc.done) pc' = 0 := part_of_not hdone
    refine ⟨esize.trans hsize, ?_, ?_, ?_, ?_, efront ▸ hfront, efront ▸ hnonneg⟩
    all_goals dsimp only
    all_goals omega

/-- The slot that the inserter writes to holds no item that is still to be taken. -/
theorem Invariant.slots_update (hs : Invariant n s) (hn : 0 < n)
    (hinside : Inserting s.inserter = true) (hclaimed : Claimed s.inserter = true)
    (entry : Waiting A) {k : ℕ} {v : Waiting A} (hk : s.inserted[k]? = some v)
    (hnone : s.entries[k]?.join = none) :
    Function.update s.buf.slots (slotOf s.buf.n (s.inserted.length + 1)) entry
      (slotOf s.buf.n (k + 1)) = v := by
  have hentries := hs.entries_le hinside hnone
  have hlt : k < s.inserted.length := (List.getElem?_eq_some_iff.mp hk).1
  have hempty := hs.counts.empty
  rw [part_of (p := (Claimed · = true)) hclaimed] at hempty
  have htaking := tally_nonneg (p := (Taking · = true)) s.workers
  have hslot : slotOf s.buf.n (k + 1) ≠ slotOf s.buf.n (s.inserted.length + 1) := by
    rw [hs.counts.size]
    apply slotOf_ne hn
    · omega
    · omega
  rw [Function.update_of_ne hslot]
  exact hs.contents.slots k v hk hnone

theorem Invariant.insertStep (hs : Invariant n s) (hn : 0 < n) {pc pc' : InsertPc} {b : Sbuf A}
    (hi : s.inserter = some (w, pc)) (hlt : s.inserted.length + 1 < 2 ^ 31)
    (h : pc.next w s.buf = some (b, pc')) :
    Invariant n (if pc' = .done then
      { s with buf := b, inserter := none, inserted := s.inserted ++ [w] }
    else { s with buf := b, inserter := some (w, pc') }) := by
  refine ⟨hs.counts.insertStep hi hlt (insert_effect h), ?_⟩
  have hwrites := hs.contents.writes
  have hrear := hs.counts.rear
  rw [hi] at hwrites hrear
  cases pc with
  | waitEmpty | waitMutex =>
    simp only [InsertPc.next] at h
    split at h
    · obtain ⟨rfl, rfl⟩ := Prod.mk.inj (Option.some.inj h)
      exact hs.contents.inserter rfl rfl trivial
    · cases h
  | bump =>
    obtain ⟨rfl, rfl⟩ := Prod.mk.inj (Option.some.inj h)
    rw [if_neg nofun]
    refine hs.contents.inserter rfl rfl ?_
    have hrear' : s.buf.rear.toInt = s.inserted.length := hrear.trans (add_zero _)
    have hsucc := toInt_succ (r := s.buf.rear) (by omega) (by omega)
    show (s.buf.rear + 1) % s.buf.n = _
    rw [mod_eq_slotOf _ (by omega), hsucc, hrear']
  | putConnfd slot =>
    obtain ⟨rfl, rfl⟩ := Prod.mk.inj (Option.some.inj h)
    obtain rfl : slot = slotOf s.buf.n (s.inserted.length + 1) := hwrites
    rw [if_neg nofun]
    refine ⟨fun k v hk hnone => ?_, hs.contents.copied, hs.contents.missing, hs.contents.last,
      hs.contents.reads, ?_⟩
    · exact hs.slots_update hn (by rw [hi]; rfl) (by rw [hi]; rfl) _ hk hnone
    · simp only [Writes, Function.update_self]
  | putAddr =>
    obtain ⟨rfl, rfl⟩ := Prod.mk.inj (Option.some.inj h)
    have hrear' : s.buf.rear.toInt = s.inserted.length + 1 := hrear
    have hslot : s.buf.rear % s.buf.n = slotOf s.buf.n (s.inserted.length + 1) := by
      rw [mod_eq_slotOf _ (by omega), hrear']
    rw [if_neg nofun, hslot]
    refine ⟨fun k v hk hnone => ?_, hs.contents.copied, hs.contents.missing, hs.contents.last,
      hs.contents.reads, ?_⟩
    · exact hs.slots_update hn (by rw [hi]; rfl) (by rw [hi]; rfl) _ hk hnone
    · have hconnfd : (s.buf.slots (slotOf s.buf.n (s.inserted.length + 1))).connfd = w.connfd :=
        hwrites
      simp only [Writes, Function.update_self, hconnfd]
  | postMutex =>
    obtain ⟨rfl, rfl⟩ := Prod.mk.inj (Option.some.inj h)
    exact hs.contents.inserter rfl rfl hwrites
  | postItems =>
    obtain ⟨rfl, rfl⟩ := Prod.mk.inj (Option.some.inj h)
    rw [if_pos rfl]
    -- The item just inserted stands in its slot, the others have not moved.
    refine ⟨fun k v hk hnone => ?_, fun k v hk => ?_, hs.contents.missing, hs.contents.last,
      fun i => ?_, trivial⟩
    · rw [List.getElem?_append] at hk
      split at hk
      · exact hs.contents.slots k v hk hnone
      · rename_i hge
        obtain ⟨hzero, rfl⟩ := List.getElem?_eq_some_iff.mp hk
        rw [List.length_singleton] at hzero
        obtain rfl : k = s.inserted.length := by omega
        have hslot : s.buf.slots (slotOf s.buf.n (s.inserted.length + 1)) = w := hwrites
        simpa using hslot
    · have hold := hs.contents.copied k v hk
      exact List.getElem?_append_left (List.getElem?_eq_some_iff.mp hold).1 ▸ hold
    · have hreads := hs.contents.reads i
      rcases hworker : s.workers i with - | pc
      · trivial
      rw [hworker] at hreads
      cases pc with
      | getConnfd slot => exact hreads
      | getAddr connfd =>
        obtain ⟨v, hv, hconnfd⟩ := hreads
        exact ⟨v, List.getElem?_append_left (List.getElem?_eq_some_iff.mp hv).1 ▸ hv, hconnfd⟩
      | _ => trivial
  | done => cases h

end Insert

section Remove

variable {ι A : Type} [Fintype ι] [DecidableEq ι] {n : Int32} {s : State ι A} {i : ι}

theorem Counts.removeStep (hs : Counts n s) {pc pc' : RemovePc A} {b : Sbuf A}
    (hi : s.workers i = some pc) (hlt : s.inserted.length < 2 ^ 31)
    (h : RemoveEffect s.buf pc b pc') :
    Counts n (note { s with buf := b, workers := Function.update s.workers i (some pc') } i pc') := by
  obtain ⟨hsize, hmutex, hitems, hempty, hrear, hfront, hnonneg⟩ := hs
  obtain ⟨esize, erear, -, emutex, eitems, eempty, efront⟩ := h
  have hbump : part (Bumping · = true) (some pc) ≤ tally (Bumping · = true) s.workers :=
    hi ▸ part_le_tally s.workers i
  have hpart := part_nonneg (p := (Bumping · = true)) (some pc)
  have hqueue := tally_nonneg (p := (Queueing · = true)) s.workers
  have hfront' := efront hnonneg (by omega)
  have hlength : ((note { s with buf := b, workers := Function.update s.workers i (some pc') } i
      pc').entries.length : ℤ) = s.entries.length + part (Bumping · = true) (some pc') := by
    cases pc' <;> simp [note, part, Bumping]
  have hsame : ∀ s' : State ι A, (note s' i pc').buf = s'.buf ∧ (note s' i pc').inserter = s'.inserter ∧
      (note s' i pc').workers = s'.workers ∧ (note s' i pc').inserted = s'.inserted := by
    intro s'
    cases pc' <;> exact ⟨rfl, rfl, rfl, rfl⟩
  obtain ⟨hbuf, hinserter, hworkers, hinserted⟩ := hsame { s with
    buf := b, workers := Function.update s.workers i (some pc') }
  refine ⟨?_, ?_, ?_, ?_, ?_, ?_, ?_⟩
  all_goals simp only [hbuf, hinserter, hworkers, hinserted, hlength, tally_update, hi]
  · exact esize.trans hsize
  · omega
  · omega
  · omega
  · rw [erear]
    exact hrear
  · omega
  · omega

omit [Fintype ι] in
/-- A step of a worker that leaves the ring alone and its own entry as it is. -/
theorem Contents.worker (hs : Contents s) {b : Sbuf A} {y : Option (RemovePc A)}
    (hslots : b.slots = s.buf.slots) (hn : b.n = s.buf.n)
    (hreading : Reading y = Reading (s.workers i))
    (hreads : Reads s.buf.n s.inserted (s.ticket i) y) :
    Contents { s with buf := b, workers := Function.update s.workers i y } := by
  have hsame : ∀ j, Reading (Function.update s.workers i y j) = Reading (s.workers j) := by
    intro j
    rcases eq_or_ne j i with rfl | hne
    · rw [Function.update_self, hreading]
    · rw [Function.update_of_ne hne]
  refine ⟨?_, hs.copied, fun k hk => ?_, fun j hj => ?_, fun j => ?_, ?_⟩
  · simp only [hslots, hn]
    exact hs.slots
  · simp only [hsame]
    exact hs.missing k hk
  · simp only [hsame] at hj
    exact hs.last j hj
  · simp only [hn]
    rcases eq_or_ne j i with rfl | hne
    · rw [Function.update_self]
      exact hreads
    · rw [Function.update_of_ne hne]
      exact hs.reads j
  · simp only [hslots, hn]
    exact hs.writes

/-- At most one worker is inside the critical section. -/
theorem Counts.alone (hs : Counts n s) (hi : Removing (s.workers i) = true) {j : ι}
    (hj : Reading (s.workers j) = true) : j = i := by
  have hle : tally (Removing · = true) s.workers ≤ 1 := by
    have hmutex := hs.mutex
    have := part_nonneg (p := (Inserting · = true)) s.inserter
    omega
  exact eq_of_tally_le_one hle (removing_of_reading hj) hi

/-- A worker enters the critical section, which is empty. -/
theorem Invariant.enter (hs : Invariant n s) (hmutex : 0 < s.buf.mutex) {b : Sbuf A}
    (hslots : b.slots = s.buf.slots) (hn : b.n = s.buf.n) :
    Contents (note { s with buf := b, workers := Function.update s.workers i (some .bump) } i
      .bump) := by
  have hnobody : ∀ j, ¬ Reading (s.workers j) = true := by
    intro j hj
    have hzero : tally (Removing · = true) s.workers = 0 := by
      have hone := hs.counts.mutex
      have := part_nonneg (p := (Inserting · = true)) s.inserter
      have := tally_nonneg (p := (Removing · = true)) s.workers
      omega
    exact not_of_tally_eq_zero hzero j (removing_of_reading hj)
  have hfull : ∀ k : ℕ, s.entries[k]? ≠ some none := by
    intro k hk
    obtain ⟨j, hj, -⟩ := hs.contents.missing k hk
    exact hnobody j hj
  refine ⟨fun k v hk hnone => ?_, fun k v hk => ?_, fun k hk => ?_, fun j hj => ?_, fun j => ?_, ?_⟩
  · simp only [note, hslots, hn] at hk hnone ⊢
    apply hs.contents.slots k v hk
    rw [List.getElem?_append] at hnone
    split at hnone
    · exact hnone
    · rename_i hge
      rw [List.getElem?_eq_none (not_lt.mp hge)]
      rfl
  · simp only [note] at hk
    rw [List.getElem?_append] at hk
    split at hk
    · exact hs.contents.copied k v hk
    · obtain ⟨_, hv⟩ := List.getElem?_eq_some_iff.mp hk
      simp at hv
  · simp only [note] at hk ⊢
    rw [List.getElem?_append] at hk
    split at hk
    · exact absurd hk (hfull k)
    · rename_i hge
      have hzero := (List.getElem?_eq_some_iff.mp hk).1
      rw [List.length_singleton] at hzero
      refine ⟨i, ?_, ?_⟩
      · rw [Function.update_self]
        rfl
      · rw [Function.update_self]
        omega
  · simp only [note] at hj ⊢
    rcases eq_or_ne j i with rfl | hne
    · rw [Function.update_self]
      exact ⟨by rw [List.length_append, List.length_singleton], List.getElem?_concat_length⟩
    · rw [Function.update_of_ne hne] at hj
      exact absurd hj (hnobody j)
  · simp only [note, hn]
    rcases eq_or_ne j i with rfl | hne
    · simp only [Function.update_self]
      trivial
    · rw [Function.update_of_ne hne, Function.update_of_ne hne]
      exact hs.contents.reads j
  · simp only [note, hslots, hn]
    exact hs.contents.writes

/-- A worker that has copied the descriptor finds the address of the same item. -/
theorem Invariant.item (hs : Invariant n s) {connfd : Int32}
    (hi : s.workers i = some (.getAddr connfd)) :
    s.inserted[s.ticket i]? =
      some ⟨connfd, (s.buf.slots (s.buf.front % s.buf.n)).clientaddr⟩ := by
  have hreading : Reading (s.workers i) = true := by
    rw [hi]
    rfl
  obtain ⟨hticket, hentry⟩ := hs.contents.last i hreading
  have hbumping : tally (Bumping · = true) s.workers = 0 := by
    apply tally_eq_zero
    intro j hj
    obtain rfl := hs.counts.alone (removing_of_reading hreading) (reading_of_bumping hj)
    rw [hi] at hj
    cases hj
  have hfront := hs.counts.front
  have hslot : s.buf.front % s.buf.n = slotOf s.buf.n (s.ticket i + 1) := by
    rw [mod_eq_slotOf _ hs.counts.front_nonneg]
    congr 1
    omega
  have hreads := hs.contents.reads i
  rw [hi] at hreads
  obtain ⟨v, hv, rfl⟩ := hreads
  have hat := hs.contents.slots _ v hv (by rw [hentry]; rfl)
  rw [hslot, hat]
  exact hv

/-- A worker notes the item that it has copied. -/
theorem Invariant.fill (hs : Invariant n s) {connfd : Int32} {w : Waiting A}
    (hi : s.workers i = some (.getAddr connfd)) (hw : s.inserted[s.ticket i]? = some w) :
    Contents (note { s with workers := Function.update s.workers i (some (.postMutex w)) } i
      (.postMutex w)) := by
  have hreading : Reading (s.workers i) = true := by
    rw [hi]
    rfl
  have hlt : s.ticket i < s.entries.length := by
    have := (hs.contents.last i hreading).1
    omega
  have hnobody : ∀ j, Reading (Function.update s.workers i (some (.postMutex w)) j) = true → False := by
    intro j hj
    rcases eq_or_ne j i with rfl | hne
    · rw [Function.update_self] at hj
      cases hj
    · rw [Function.update_of_ne hne] at hj
      exact hne (hs.counts.alone (removing_of_reading hreading) hj)
  refine ⟨fun k v hk hnone => ?_, fun k v hk => ?_, fun k hk => ?_, fun j hj => ?_, fun j => ?_,
    hs.contents.writes⟩
  · apply hs.contents.slots k v hk
    simp only [note] at hnone
    by_cases hk' : s.ticket i = k
    · rw [← hk', List.getElem?_set_self hlt] at hnone
      cases hnone
    · rwa [List.getElem?_set_ne hk'] at hnone
  · simp only [note] at hk
    by_cases hk' : s.ticket i = k
    · rw [← hk', List.getElem?_set_self hlt] at hk
      rw [← hk', ← Option.some.inj (Option.some.inj hk)]
      exact hw
    · rw [List.getElem?_set_ne hk'] at hk
      exact hs.contents.copied k v hk
  · simp only [note] at hk
    have hk' : s.ticket i ≠ k := by
      rintro rfl
      rw [List.getElem?_set_self hlt] at hk
      cases hk
    rw [List.getElem?_set_ne hk'] at hk
    obtain ⟨j, hj, rfl⟩ := hs.contents.missing k hk
    obtain rfl := hs.counts.alone (removing_of_reading hreading) hj
    exact absurd rfl hk'
  · exact absurd (hnobody j hj) id
  · simp only [note]
    rcases eq_or_ne j i with rfl | hne
    · rw [Function.update_self]
      trivial
    · rw [Function.update_of_ne hne]
      exact hs.contents.reads j

theorem Invariant.removeStep (hs : Invariant n s) {pc pc' : RemovePc A} {b : Sbuf A}
    (hi : s.workers i = some pc) (hlt : s.inserted.length < 2 ^ 31)
    (h : pc.next s.buf = some (b, pc')) :
    Invariant n (note { s with buf := b, workers := Function.update s.workers i (some pc') } i
      pc') := by
  refine ⟨hs.counts.removeStep hi hlt (remove_effect h), ?_⟩
  have hcounts := hs.counts
  cases pc with
  | waitItems =>
    simp only [RemovePc.next] at h
    split at h
    · obtain ⟨rfl, rfl⟩ := Prod.mk.inj (Option.some.inj h)
      exact hs.contents.worker rfl rfl (by rw [hi]; rfl) trivial
    · cases h
  | waitMutex =>
    simp only [RemovePc.next] at h
    split at h
    · rename_i hmutex
      obtain ⟨rfl, rfl⟩ := Prod.mk.inj (Option.some.inj h)
      exact hs.enter hmutex rfl rfl
    · cases h
  | bump =>
    obtain ⟨rfl, rfl⟩ := Prod.mk.inj (Option.some.inj h)
    refine hs.contents.worker rfl rfl (by rw [hi]; rfl) ?_
    have hreading : Reading (s.workers i) = true := by
      rw [hi]
      rfl
    have hticket := (hs.contents.last i hreading).1
    have hbumping : tally (Bumping · = true) s.workers = 1 := by
      rw [tally_of_alone (i := i), hi]
      · rfl
      · intro j hne hj
        exact hne (hcounts.alone (removing_of_reading hreading) (reading_of_bumping hj))
    have hfront := hcounts.front
    have hitems := hcounts.items
    have hqueue := tally_nonneg (p := (Queueing · = true)) s.workers
    have hsucc := toInt_succ hcounts.front_nonneg (by omega)
    show (s.buf.front + 1) % s.buf.n = _
    rw [mod_eq_slotOf _ (by have := hcounts.front_nonneg; omega)]
    congr 1
    omega
  | getConnfd slot =>
    obtain ⟨rfl, rfl⟩ := Prod.mk.inj (Option.some.inj h)
    refine hs.contents.worker rfl rfl (by rw [hi]; rfl) ?_
    have hreads := hs.contents.reads i
    rw [hi] at hreads
    obtain rfl : slot = slotOf s.buf.n (s.ticket i + 1) := hreads
    obtain ⟨hticket, hentry⟩ := hs.contents.last i (by rw [hi]; rfl)
    have hlen : s.ticket i < s.inserted.length := by
      have hitems := hcounts.items
      have hqueue := tally_nonneg (p := (Queueing · = true)) s.workers
      omega
    have hget : s.inserted[s.ticket i]? = some s.inserted[s.ticket i] :=
      List.getElem?_eq_getElem hlen
    refine ⟨_, hget, ?_⟩
    rw [hs.contents.slots _ _ hget (by rw [hentry]; rfl)]
  | getAddr connfd =>
    obtain ⟨rfl, rfl⟩ := Prod.mk.inj (Option.some.inj h)
    exact hs.fill hi (hs.item hi)
  | postMutex w =>
    obtain ⟨rfl, rfl⟩ := Prod.mk.inj (Option.some.inj h)
    exact hs.contents.worker rfl rfl (by rw [hi]; rfl) trivial
  | postEmpty w =>
    obtain ⟨rfl, rfl⟩ := Prod.mk.inj (Option.some.inj h)
    exact hs.contents.worker rfl rfl (by rw [hi]; rfl) trivial
  | done w => cases h

end Remove

section Order

variable {ι A : Type} [Fintype ι] {n : Int32} {s s' : State ι A}

theorem invariant_started (hs : Started n s) (hn : 0 < n) : Invariant n s := by
  obtain ⟨⟨slots, hbuf⟩, hinserter, hworkers, hinserted, hentries⟩ := hs
  have hnone : ∀ p : Option (RemovePc A) → Bool, p none = false →
      tally (p · = true) s.workers = 0 := by
    intro p hp
    apply tally_eq_zero
    intro i
    rw [hworkers i, hp]
    exact Bool.false_ne_true
  have hpos : 0 < n.toInt := Int32.lt_iff_toInt_lt.mp hn
  refine ⟨⟨?_, ?_, ?_, ?_, ?_, ?_, ?_⟩, ⟨?_, ?_, ?_, ?_, ?_, ?_⟩⟩
  · rw [hbuf]
    rfl
  · rw [hnone Removing rfl, hinserter, hbuf]
    rfl
  · rw [hnone Queueing rfl, hinserted, hentries, hbuf]
    rfl
  · have hslots : (n.toInt.toNat : ℤ) = n.toInt := Int.toNat_of_nonneg hpos.le
    have hclaimed : part (Claimed · = true) (none : Option (Waiting A × InsertPc)) = 0 := rfl
    rw [hnone Taking rfl, hinserter, hinserted, hentries, hbuf, hclaimed]
    simp only [mutexInit, List.length_nil, Nat.cast_zero]
    omega
  · rw [hinserter, hinserted, hbuf]
    rfl
  · rw [hnone Bumping rfl, hentries, hbuf]
    rfl
  · rw [hbuf]
    exact Int.le_refl 0
  · intro k w hk
    rw [hinserted] at hk
    cases hk
  · intro k w hk
    rw [hentries] at hk
    cases hk
  · intro k hk
    rw [hentries] at hk
    cases hk
  · intro i hi
    rw [hworkers i] at hi
    cases hi
  · intro i
    rw [hworkers i]
    trivial
  · rw [hinserter]
    trivial

variable [DecidableEq ι]

omit [Fintype ι] in
/-- No step takes a call back. -/
theorem calls_le {a : Action ι A} (h : next s a = some s') : calls s ≤ calls s' := by
  cases moves_of_next h with
  | insert w hidle => simp [calls, hidle]
  | inserting hinserter => simp [calls, hinserter]
  | inserted hinserter => simp [calls, hinserter]
  | remove => exact le_refl _
  | @removeStep i pc pc' => cases pc' <;> exact le_refl _
  | ret => exact le_refl _

/-- A worker goes to the queue or comes back from it. -/
theorem Invariant.idle (hs : Invariant n s) {i : ι} {y : Option (RemovePc A)}
    (hx : s.workers i = none ∨ ∃ w, s.workers i = some (.done w))
    (hy : y = none ∨ y = some .waitItems) :
    Invariant n { s with workers := Function.update s.workers i y } := by
  have hsame : ∀ p : Option (RemovePc A) → Bool, p none = false → p (some .waitItems) = false →
      (∀ w, p (some (.done w)) = false) →
      tally (p · = true) (Function.update s.workers i y) = tally (p · = true) s.workers := by
    intro p hnone hwait hdone
    have hnew : part (p · = true) y = 0 := by
      apply part_of_not
      rcases hy with rfl | rfl
      · rw [hnone]
        exact Bool.false_ne_true
      · rw [hwait]
        exact Bool.false_ne_true
    have hold : part (p · = true) (s.workers i) = 0 := by
      apply part_of_not
      rcases hx with hx | ⟨w, hx⟩
      · rw [hx, hnone]
        exact Bool.false_ne_true
      · rw [hx, hdone]
        exact Bool.false_ne_true
    rw [tally_update, hnew, hold, add_zero, sub_zero]
  obtain ⟨⟨hsize, hmutex, hitems, hempty, hrear, hfront, hnonneg⟩, hcontents⟩ := hs
  refine ⟨⟨hsize, ?_, ?_, ?_, hrear, ?_, hnonneg⟩, hcontents.worker rfl rfl ?_ ?_⟩
  · rw [hsame Removing rfl rfl fun _ => rfl]
    exact hmutex
  · rw [hsame Queueing rfl rfl fun _ => rfl]
    exact hitems
  · rw [hsame Taking rfl rfl fun _ => rfl]
    exact hempty
  · rw [hsame Bumping rfl rfl fun _ => rfl]
    exact hfront
  · rcases hx with hx | ⟨w, hx⟩ <;> rcases hy with rfl | rfl <;> rw [hx] <;> rfl
  · rcases hy with rfl | rfl <;> trivial

theorem invariant_next {a : Action ι A} (hs : Invariant n s) (hn : 0 < n) (hcalls : calls s < 2 ^ 31)
    (h : next s a = some s') : Invariant n s' := by
  have hlt : s.inserted.length < 2 ^ 31 := by
    unfold calls at hcalls
    omega
  have hroom : ∀ {w : Waiting A} {pc : InsertPc}, s.inserter = some (w, pc) →
      s.inserted.length + 1 < 2 ^ 31 := by
    intro w pc hinserter
    rw [calls, hinserter] at hcalls
    exact hcalls
  cases moves_of_next h with
  | insert w hidle =>
    obtain ⟨⟨hsize, hmutex, hitems, hempty, hrear, hfront, hnonneg⟩, hcontents⟩ := hs
    rw [hidle] at hmutex hempty hrear
    exact ⟨⟨hsize, hmutex, hitems, hempty, hrear, hfront, hnonneg⟩,
      hcontents.inserter rfl rfl trivial⟩
  | inserting hinserter hnext hdone =>
    have hinv := hs.insertStep hn hinserter (hroom hinserter) hnext
    rwa [if_neg hdone] at hinv
  | inserted hinserter hnext =>
    have hinv := hs.insertStep hn hinserter (hroom hinserter) hnext
    rwa [if_pos rfl] at hinv
  | remove hidle => exact hs.idle (Or.inl hidle) (Or.inr rfl)
  | removeStep hworker hnext => exact hs.removeStep hworker hlt hnext
  | @ret i w hdone => exact hs.idle (Or.inr ⟨w, hdone⟩) (Or.inl rfl)

/-- Places filled in order, all but the last one, hold a prefix. -/
theorem reduceOption_prefix {entries : List (Option A)} : ∀ {l : List A},
    (∀ (k : ℕ) (v : A), entries[k]? = some (some v) → l[k]? = some v) →
    (∀ k : ℕ, entries[k]? = some none → k + 1 = entries.length) →
    entries.reduceOption <+: l ∧ (entries.reduceOption.length = entries.length ∨
      none ∈ entries ∧ entries.reduceOption.length + 1 = entries.length) := by
  induction entries with
  | nil => exact fun _ _ => ⟨List.nil_prefix, Or.inl rfl⟩
  | cons e entries ih =>
    intro l hcopied hlast
    cases e with
    | none =>
      have hnil : entries = [] := by
        have := hlast 0 rfl
        rw [List.length_cons] at this
        exact List.eq_nil_of_length_eq_zero (by omega)
      subst hnil
      exact ⟨List.nil_prefix, Or.inr ⟨List.mem_cons_self, rfl⟩⟩
    | some v =>
      obtain ⟨l, rfl⟩ : ∃ l', l = v :: l' := by
        have hv := hcopied 0 v rfl
        cases l with
        | nil => cases hv
        | cons u l =>
          rw [List.getElem?_cons_zero, Option.some.injEq] at hv
          exact ⟨l, by rw [hv]⟩
      obtain ⟨hpre, hlength⟩ := ih (l := l) (fun k u hu => hcopied (k + 1) u hu) fun k hk => by
        have := hlast (k + 1) hk
        rw [List.length_cons] at this
        omega
      rw [List.reduceOption_cons_of_some, List.length_cons, List.length_cons]
      refine ⟨List.cons_prefix_cons.mpr ⟨rfl, hpre⟩, ?_⟩
      rcases hlength with hlength | ⟨hmem, hlength⟩
      · exact Or.inl (by rw [hlength])
      · exact Or.inr ⟨List.mem_cons_of_mem _ hmem, by omega⟩

/-- The items come out in the order in which they went in, and no more than n of
them are held. -/
theorem fifo (hn : 0 < n) (hs : (runs ι A n).Reachable s) (hcalls : calls s < 2 ^ 31) :
    taken s <+: s.inserted ∧ held s ≤ n.toInt := by
  have hinv : calls s < 2 ^ 31 → Invariant n s := by
    apply hs.invariant (I := fun s => calls s < 2 ^ 31 → Invariant n s)
    · intro t ht _
      exact invariant_started ht hn
    · intro t a t' ht hstep hcalls'
      have hcalls'' : calls t < 2 ^ 31 := (calls_le hstep).trans_lt hcalls'
      exact invariant_next (ht hcalls'') hn hcalls'' hstep
  obtain ⟨hcounts, hcontents⟩ := hinv hcalls
  obtain ⟨hpre, hlength⟩ := reduceOption_prefix hcontents.copied fun k hk => by
    obtain ⟨i, hi, rfl⟩ := hcontents.missing k hk
    exact (hcontents.last i hi).1
  refine ⟨hpre, ?_⟩
  have htaking := tally_nonneg (p := (Taking · = true)) s.workers
  have hclaimed : part (Bumped · = true) s.inserter ≤ part (Claimed · = true) s.inserter :=
    part_le_part claimed_of_bumped
  have hempty := hcounts.empty
  have hlength' : (s.entries.length : ℤ) ≤ (taken s).length + tally (Taking · = true) s.workers := by
    rcases hlength with hlength | ⟨hmem, hlength⟩
    · unfold taken
      omega
    · obtain ⟨k, hk⟩ := List.mem_iff_getElem?.mp hmem
      obtain ⟨i, hi, -⟩ := hcontents.missing k hk
      have hone : part (Taking · = true) (s.workers i) = 1 := part_of (taking_of_reading hi)
      have := part_le_tally (p := (Taking · = true)) s.workers i
      unfold taken
      omega
  unfold held
  omega

end Order

def oneSlot : State Bool ℕ where
  buf := mutexInit (fun _ => ⟨0, 0⟩) 1
  inserter := none
  workers _ := none
  inserted := []
  entries := []
  ticket _ := 0

def handOver : List (Action Bool ℕ) :=
  [.remove true, .remove false, .insert ⟨5, 50⟩] ++ List.replicate 7 .insertStep ++
    List.replicate 7 (.removeStep false) ++ [.insert ⟨6, 60⟩] ++ List.replicate 7 .insertStep ++
    List.replicate 5 (.removeStep true)

theorem fifo_hand_over : ∃ s : State Bool ℕ, (runs Bool ℕ 1).Reachable s ∧
    taken s = [⟨5, 50⟩, ⟨6, 60⟩] ∧ taken s <+: s.inserted ∧ held s ≤ 1 := by
  have hrun : (System.perform next (fun _ _ => True) oneSlot handOver).map
      (fun s => (taken s, calls s)) = some ([⟨5, 50⟩, ⟨6, 60⟩], 2) := by decide +kernel
  obtain ⟨s, hs, hread⟩ := Option.map_eq_some_iff.mp hrun
  obtain ⟨htaken, hcalls⟩ := Prod.mk.inj hread
  have hstart : ((runs Bool ℕ 1).guarded fun _ _ => True).Reachable oneSlot :=
    .initial ⟨⟨_, rfl⟩, rfl, fun _ => rfl, rfl, rfl⟩
  have hreach := (hstart.perform hs).of_guarded
  obtain ⟨hpre, hheld⟩ := fifo (by decide) hreach (by rw [hcalls]; decide)
  exact ⟨s, hreach, htaken, hpre, hheld⟩

end SystemSoftware.QueueRuns
