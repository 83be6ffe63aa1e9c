import Mathlib.Logic.Function.Basic
import Mathlib.Data.Int.ModEq

/-!
The queue of accepted connections of the thread-based stock server: sbuf_t of
threading.c, a ring of n slots between the indices front and rear, with one
semaphore that counts the empty slots, one for the items and one for mutual
exclusion. `sbuf_insert` and `sbuf_remove` are given step by step, one access to
a shared variable at a time.
-/
namespace SystemSoftware.ConnectionQueue

variable {A : Type}

/-- `waiting_connfd`; nothing is done with the address but copying it. -/
structure Waiting (A : Type) where
  connfd : Int32
  clientaddr : A
  deriving DecidableEq

structure Sbuf (A : Type) where
  slots : Int32 → Waiting A
  n : Int32
  front : Int32
  rear : Int32
  mutex : ℕ
  emptySlots : ℕ
  items : ℕ

/-- What `mutex_init` makes of a queue, whatever `calloc` returns. -/
def mutexInit (slots : Int32 → Waiting A) (n : Int32) : Sbuf A :=
  ⟨slots, n, 0, 0, 1, n.toInt.toNat, 0⟩

/-- Where the accepting thread is in `sbuf_insert`; `putConnfd` has computed the
slot that it writes to. -/
inductive InsertPc
  | waitEmpty
  | waitMutex
  | bump
  | putConnfd (slot : Int32)
  | putAddr
  | postMutex
  | postItems
  | done
  deriving DecidableEq

def InsertPc.next (w : Waiting A) (b : Sbuf A) : InsertPc → Option (Sbuf A × InsertPc)
  | .waitEmpty =>
    if 0 < b.emptySlots then some ({ b with emptySlots := b.emptySlots - 1 }, .waitMutex) else none
  | .waitMutex => if 0 < b.mutex then some ({ b with mutex := b.mutex - 1 }, .bump) else none
  | .bump => some ({ b with rear := b.rear + 1 }, .putConnfd ((b.rear + 1) % b.n))
  | .putConnfd slot =>
    let entry := { b.slots slot with connfd := w.connfd }
    some ({ b with slots := Function.update b.slots slot entry }, .putAddr)
  | .putAddr =>
    let slot := b.rear % b.n
    let entry := { b.slots slot with clientaddr := w.clientaddr }
    some ({ b with slots := Function.update b.slots slot entry }, .postMutex)
  | .postMutex => some ({ b with mutex := b.mutex + 1 }, .postItems)
  | .postItems => some ({ b with items := b.items + 1 }, .done)
  | .done => none

/-- Where a worker is in `sbuf_remove`, with what it has copied so far. -/
inductive RemovePc (A : Type)
  | waitItems
  | waitMutex
  | bump
  | getConnfd (slot : Int32)
  | getAddr (connfd : Int32)
  | postMutex (w : Waiting A)
  | postEmpty (w : Waiting A)
  | done (w : Waiting A)
  deriving DecidableEq

def RemovePc.next (b : Sbuf A) : RemovePc A → Option (Sbuf A × RemovePc A)
  | .waitItems => if 0 < b.items then some ({ b with items := b.items - 1 }, .waitMutex) else none
  | .waitMutex => if 0 < b.mutex then some ({ b with mutex := b.mutex - 1 }, .bump) else none
  | .bump => some ({ b with front := b.front + 1 }, .getConnfd ((b.front + 1) % b.n))
  | .getConnfd slot => some (b, .getAddr (b.slots slot).connfd)
  | .getAddr connfd => some (b, .postMutex ⟨connfd, (b.slots (b.front % b.n)).clientaddr⟩)
  | .postMutex w => some ({ b with mutex := b.mutex + 1 }, .postEmpty w)
  | .postEmpty w => some ({ b with emptySlots := b.emptySlots + 1 }, .done w)
  | .done _ => none

def slotOf (n : Int32) (k : ℤ) : Int32 := Int32.ofInt (k % n.toInt)

section Slots

variable {n r : Int32} {a b : ℤ}

theorem toInt_slotOf (hn : 0 < n) (k : ℤ) : (slotOf n k).toInt = k % n.toInt := by
  have hpos : 0 < n.toInt := Int32.lt_iff_toInt_lt.mp hn
  have hlow := Int.emod_nonneg k hpos.ne'
  have hhigh := Int.emod_lt_of_pos k hpos
  have hmax := n.toInt_lt
  exact Int32.toInt_ofInt_of_le (by omega) (by omega)

/-- An index that has not wrapped leads to the slot of its number. -/
theorem mod_eq_slotOf (n : Int32) (hr : 0 ≤ r.toInt) : r % n = slotOf n r.toInt := by
  rw [slotOf, ← Int.tmod_eq_emod_of_nonneg hr, ← Int32.toInt_mod, Int32.ofInt_toInt]

/-- Items less than n apart are in different slots. -/
theorem slotOf_ne (hn : 0 < n) (hlt : a < b) (hb : b < a + n.toInt) : slotOf n a ≠ slotOf n b := by
  intro heq
  have hmod : b % n.toInt = a % n.toInt := by
    rw [← toInt_slotOf hn, ← toInt_slotOf hn, heq]
  have hdvd : n.toInt ∣ b - a := Int.ModEq.dvd hmod.symm
  have hle := Int.le_of_dvd (by omega) hdvd
  omega

theorem toInt_succ (hr : 0 ≤ r.toInt) (hlt : r.toInt + 1 < 2 ^ 31) : (r + 1).toInt = r.toInt + 1 := by
  have hone : (1 : Int32).toInt = 1 := rfl
  rw [Int32.toInt_add, hone, Int.bmod]
  omega

end Slots

end SystemSoftware.ConnectionQueue
