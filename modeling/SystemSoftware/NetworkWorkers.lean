import SystemSoftware.ConnectionQueue
import SystemSoftware.Transitions
import Mathlib.Data.Fintype.Option

/-!
The workers of the thread-based stock server, which take connections off the
queue and serve them, and the saving of the stock table. A worker that finds all
workers idle takes the mutex of the queue and raises SIGSYNC; the handler saves
the table and posts the mutex. The handler runs in any thread that is not
already in it, which does nothing else until it returns.
-/
namespace SystemSoftware.NetworkWorkers

open ConnectionQueue Transitions

variable {A : Type}

/-- Where a worker is in the loop of `network_worker`. Asking for the name of the
client and printing it touch nothing shared and count as part of `service`. -/
inductive WorkerPc (A : Type)
  | removing (pc : RemovePc A)
  | waitIdle (w : Waiting A)
  | service (w : Waiting A)
  | postIdle
  | getvalue
  | test (idle : ℕ)
  | waitMutex
  | raise
  deriving DecidableEq

inductive HandlerPc
  | call
  | saving
  | post
  deriving DecidableEq

/-- A call of `modify`, or the beginning of a call of `fsync_stockfile`. -/
inductive Event
  | modify
  | save
  deriving DecidableEq

structure Shared (A : Type) where
  buf : Sbuf A
  idle : ℕ
  pending : Bool

def arrived : RemovePc A → WorkerPc A
  | .done w => .waitIdle w
  | pc => .removing pc

def WorkerPc.next (N : ℕ) (s : Shared A) : WorkerPc A → Option (Shared A × WorkerPc A)
  | .removing pc => do
    let (buf, pc) ← pc.next s.buf
    some ({ s with buf := buf }, arrived pc)
  | .waitIdle w => if 0 < s.idle then some ({ s with idle := s.idle - 1 }, .service w) else none
  | .service _ => some (s, .postIdle)
  | .postIdle => some ({ s with idle := s.idle + 1 }, .getvalue)
  | .getvalue => some (s, .test s.idle)
  | .test idle => some (s, if idle = N then .waitMutex else .removing .waitItems)
  | .waitMutex =>
    if 0 < s.buf.mutex then
      let buf := { s.buf with mutex := s.buf.mutex - 1 }
      some ({ s with buf := buf }, .raise)
    else none
  | .raise => some ({ s with pending := true }, .removing .waitItems)

section Runs

variable {ι : Type} [Fintype ι] [DecidableEq ι]

/-- The thread `none` is the one that accepts connections. -/
structure State (ι A : Type) where
  shared : Shared A
  inserter : Option (Waiting A × InsertPc)
  workers : ι → WorkerPc A
  handlers : Option ι → Option HandlerPc
  history : List Event

inductive Action (ι A : Type)
  | accept (w : Waiting A)
  | insertStep
  | workerStep (i : ι)
  | modify (i : ι)
  | deliver (t : Option ι)
  | handlerStep (t : Option ι)

/-- A step of a thread, or the delivery of a signal to it. Only a thread outside
the handler goes on with its own work. -/
def next (s : State ι A) : Action ι A → Option (State ι A)
  | .accept w =>
    match s.handlers none, s.inserter with
    | none, none => some { s with inserter := some (w, .waitEmpty) }
    | _, _ => none
  | .insertStep =>
    match s.handlers none with
    | none => do
      let (w, pc) ← s.inserter
      let (buf, pc) ← pc.next w s.shared.buf
      some { s with
        shared := { s.shared with buf := buf }
        inserter := if pc = .done then none else some (w, pc) }
    | some _ => none
  | .workerStep i =>
    match s.handlers (some i) with
    | none => do
      let (shared, pc) ← (s.workers i).next (Fintype.card ι) s.shared
      some { s with shared := shared, workers := Function.update s.workers i pc }
    | some _ => none
  | .modify i =>
    match s.handlers (some i), s.workers i with
    | none, .service _ => some { s with history := s.history ++ [.modify] }
    | _, _ => none
  | .deliver t =>
    match s.shared.pending, s.handlers t with
    | true, none =>
      some { s with
        shared := { s.shared with pending := false }
        handlers := Function.update s.handlers t (some .call) }
    | _, _ => none
  | .handlerStep t =>
    match s.handlers t with
    | some .call =>
      some { s with
        handlers := Function.update s.handlers t (some .saving)
        history := s.history ++ [.save] }
    | some .saving => some { s with handlers := Function.update s.handlers t (some .post) }
    | some .post =>
      let buf := { s.shared.buf with mutex := s.shared.buf.mutex + 1 }
      some { s with
        shared := { s.shared with buf := buf }
        handlers := Function.update s.handlers t none }
    | none => none

inductive Moves (s : State ι A) : Action ι A → State ι A → Prop
  | accept (w : Waiting A) (hfree : s.handlers none = none) (hidle : s.inserter = none) :
      Moves s (.accept w) { s with inserter := some (w, .waitEmpty) }
  | insertStep {w : Waiting A} {pc pc' : InsertPc} {buf : Sbuf A} (hfree : s.handlers none = none)
      (hinserter : s.inserter = some (w, pc)) (hnext : pc.next w s.shared.buf = some (buf, pc')) :
      Moves s .insertStep { s with
        shared := { s.shared with buf := buf }
        inserter := if pc' = .done then none else some (w, pc') }
  | workerStep {i : ι} {shared : Shared A} {pc : WorkerPc A} (hfree : s.handlers (some i) = none)
      (hnext : (s.workers i).next (Fintype.card ι) s.shared = some (shared, pc)) :
      Moves s (.workerStep i)
        { s with shared := shared, workers := Function.update s.workers i pc }
  | modify {i : ι} {w : Waiting A} (hfree : s.handlers (some i) = none)
      (hservice : s.workers i = .service w) :
      Moves s (.modify i) { s with history := s.history ++ [.modify] }
  | deliver {t : Option ι} (hpending : s.shared.pending = true) (hfree : s.handlers t = none) :
      Moves s (.deliver t) { s with
        shared := { s.shared with pending := false }
        handlers := Function.update s.handlers t (some .call) }
  | call {t : Option ι} (hcall : s.handlers t = some .call) :
      Moves s (.handlerStep t) { s with
        handlers := Function.update s.handlers t (some .saving)
        history := s.history ++ [.save] }
  | saving {t : Option ι} (hsaving : s.handlers t = some .saving) :
      Moves s (.handlerStep t)
        { s with handlers := Function.update s.handlers t (some .post) }
  | post {t : Option ι} (hpost : s.handlers t = some .post) :
      Moves s (.handlerStep t) { s with
        shared := { s.shared with
          buf := { s.shared.buf with mutex := s.shared.buf.mutex + 1 } }
        handlers := Function.update s.handlers t none }

theorem moves_of_next {s s' : State ι A} {a : Action ι A} (h : next s a = some s') :
    Moves s a s' := by
  cases a with
  | accept w =>
    simp only [next] at h
    split at h
    · next hfree hidle => exact Option.some.inj h ▸ .accept w hfree hidle
    · cases h
  | insertStep =>
    simp only [next] at h
    split at h
    · next hfree =>
      simp only [Option.bind_eq_bind, Option.bind_eq_some_iff] at h
      obtain ⟨⟨w, pc⟩, hinserter, ⟨buf, pc'⟩, hnext, h⟩ := h
      exact Option.some.inj h ▸ .insertStep hfree hinserter hnext
    · cases h
  | workerStep i =>
    simp only [next] at h
    split at h
    · next hfree =>
      simp only [Option.bind_eq_bind, Option.bind_eq_some_iff] at h
      obtain ⟨⟨shared, pc⟩, hnext, h⟩ := h
      exact Option.some.inj h ▸ .workerStep hfree hnext
    · cases h
  | modify i =>
    simp only [next] at h
    split at h
    · next hfree hservice => exact Option.some.inj h ▸ .modify hfree hservice
    · cases h
  | deliver t =>
    simp only [next] at h
    split at h
    · next hpending hfree => exact Option.some.inj h ▸ .deliver hpending hfree
    · cases h
  | handlerStep t =>
    simp only [next] at h
    split at h
    · next hcall => exact Option.some.inj h ▸ .call hcall
    · next hsaving => exact Option.some.inj h ▸ .saving hsaving
    · next hpost => exact Option.some.inj h ▸ .post hpost
    · cases h

/-- `mutex_init` with n slots, every worker at the start of its loop. -/
def Started (n : Int32) (s : State ι A) : Prop :=
  (∃ slots, s.shared = ⟨mutexInit slots n, Fintype.card ι, false⟩) ∧ s.inserter = none ∧
    (∀ i, s.workers i = .removing .waitItems) ∧ (∀ t, s.handlers t = none) ∧ s.history = []

def runs (ι A : Type) [Fintype ι] [DecidableEq ι] (n : Int32) :
    System (State ι A) (Action ι A) := System.ofNext (Started n) next

end Runs

def twoWorkers : State Bool ℕ where
  shared := ⟨mutexInit (fun _ => ⟨0, 0⟩) 2, 2, false⟩
  inserter := none
  workers _ := .removing .waitItems
  handlers _ := none
  history := []

theorem twoWorkers_started : Started 2 twoWorkers :=
  ⟨⟨_, rfl⟩, rfl, fun _ => rfl, fun _ => rfl, rfl⟩

end SystemSoftware.NetworkWorkers
