import SystemSoftware.QueueRuns
import Mathlib.Data.List.Chain
import Mathlib.Data.List.Range

/-!
The slot indices of the queue of connections over runs of any length. Both front
and rear are only ever counted up, so that they wrap after 2^31 operations of
their side, and from then on the remainder of C is zero or negative. The first
value behind the wrap is a multiple of the number of slots, so that just one
further operation still gets the slot that is due.
-/
namespace SystemSoftware.QueueIndices

open ConnectionQueue QueueRuns

abbrev pendingConnectionN : Int32 := 4096

/-- `sbuf_insert` counts rear up, and `sbuf_remove` front. -/
inductive Side
  | insertion
  | removal
  deriving DecidableEq

/-- An index that an operation computes, once it has counted up or another time. -/
structure Access where
  side : Side
  bumped : Bool
  slot : Int32
  deriving DecidableEq

section Steps

variable {A : Type} {b b' : Sbuf A}

def Side.counter (b : Sbuf A) : Side → Int32
  | .insertion => b.rear
  | .removal => b.front

/-- The index that is computed in the step of an insertion, if there is one. -/
def insertAccess (b : Sbuf A) : InsertPc → Option Access
  | .bump => some ⟨.insertion, true, (b.rear + 1) % b.n⟩
  | .putAddr => some ⟨.insertion, false, b.rear % b.n⟩
  | _ => none

def removeAccess (b : Sbuf A) : RemovePc A → Option Access
  | .bump => some ⟨.removal, true, (b.front + 1) % b.n⟩
  | .getAddr _ => some ⟨.removal, false, b.front % b.n⟩
  | _ => none

def slotsOf (side : Side) (log : List Access) : List Int32 :=
  (log.filter fun x => x.side = side && x.bumped).map (·.slot)

/-- What a step does to the counters, and where its index comes from. -/
structure Counted (b : Sbuf A) (x : Option Access) (b' : Sbuf A) : Prop where
  size : b'.n = b.n
  counter : ∀ side : Side, side.counter b' =
    side.counter b + Int32.ofNat (slotsOf side x.toList).length
  slot : ∀ y ∈ x, y.slot = y.side.counter b' % b.n

theorem Counted.idle (hn : b'.n = b.n) (hrear : b'.rear = b.rear) (hfront : b'.front = b.front) :
    Counted b none b' := by
  refine ⟨hn, fun side => ?_, nofun⟩
  cases side with
  | insertion => exact hrear.trans (Int32.add_zero _).symm
  | removal => exact hfront.trans (Int32.add_zero _).symm

/-- A step that computes a slot counts its own side up, or leaves the counters. -/
theorem Counted.slotted {x : Access} (hn : b'.n = b.n) (hslot : x.slot = x.side.counter b' % b.n)
    (hown : x.side.counter b' = x.side.counter b + if x.bumped then 1 else 0)
    (hother : ∀ side ≠ x.side, side.counter b' = side.counter b) : Counted b (some x) b' := by
  refine ⟨hn, fun side => ?_, ?_⟩
  · by_cases hside : x.side = side
    · rw [← hside, hown]
      cases hbumped : x.bumped <;> simp [slotsOf, hbumped]
    · simp [slotsOf, hside, hother side (Ne.symm hside)]
  · rintro _ ⟨⟩
    exact hslot

theorem insert_counted {w : Waiting A} {pc pc' : InsertPc} (h : pc.next w b = some (b', pc')) :
    Counted b (insertAccess b pc) b' := by
  cases pc with
  | waitEmpty | waitMutex =>
    simp only [InsertPc.next] at h
    split at h
    · obtain ⟨rfl, -⟩ := Prod.mk.inj (Option.some.inj h)
      exact .idle rfl rfl rfl
    · cases h
  | bump =>
    obtain ⟨rfl, -⟩ := Prod.mk.inj (Option.some.inj h)
    refine .slotted rfl rfl rfl fun side hside => ?_
    cases side with
    | insertion => exact absurd rfl hside
    | removal => rfl
  | putAddr =>
    obtain ⟨rfl, -⟩ := Prod.mk.inj (Option.some.inj h)
    exact .slotted rfl rfl (Int32.add_zero _).symm fun side _ => by cases side <;> rfl
  | putConnfd _ | postMutex | postItems =>
    obtain ⟨rfl, -⟩ := Prod.mk.inj (Option.some.inj h)
    exact .idle rfl rfl rfl
  | done => cases h

theorem remove_counted {pc pc' : RemovePc A} (h : pc.next b = some (b', pc')) :
    Counted b (removeAccess b pc) b' := by
  cases pc with
  | waitItems | waitMutex =>
    simp only [RemovePc.next] at h
    split at h
    · obtain ⟨rfl, -⟩ := Prod.mk.inj (Option.some.inj h)
      exact .idle rfl rfl rfl
    · cases h
  | bump =>
    obtain ⟨rfl, -⟩ := Prod.mk.inj (Option.some.inj h)
    refine .slotted rfl rfl rfl fun side hside => ?_
    cases side with
    | insertion => rfl
    | removal => exact absurd rfl hside
  | getAddr _ =>
    obtain ⟨rfl, -⟩ := Prod.mk.inj (Option.some.inj h)
    exact .slotted rfl rfl (Int32.add_zero _).symm fun side _ => by cases side <;> rfl
  | getConnfd _ | postMutex _ | postEmpty _ =>
    obtain ⟨rfl, -⟩ := Prod.mk.inj (Option.some.inj h)
    exact .idle rfl rfl rfl
  | done _ => cases h

end Steps

section Runs

variable {ι A : Type} [DecidableEq ι] {s s' t : State ι A} {n : Int32}
  {acts : List (QueueRuns.Action ι A)} {log : List Access} {side : Side}

def access (s : State ι A) : QueueRuns.Action ι A → Option Access
  | .insertStep => s.inserter.bind fun x => insertAccess s.buf x.2
  | .removeStep i => (s.workers i).bind (removeAccess s.buf)
  | _ => none

/-- A run by its actions, with the indices that it computes. -/
def recorded (s : State ι A) : List (QueueRuns.Action ι A) → Option (State ι A × List Access)
  | [] => some (s, [])
  | a :: acts => do
    let s' ← next s a
    let (t, log) ← recorded s' acts
    some (t, (access s a).toList ++ log)

/-- The indices are those of slots, and operations of one side go from slot to slot. -/
structure InRing (n : Int32) (log : List Access) : Prop where
  inside : ∀ x ∈ log, 0 ≤ x.slot ∧ x.slot < n
  consecutive : ∀ side,
    (slotsOf side log).IsChain fun a b => b.toInt = (a.toInt + 1) % n.toInt

theorem note_buf (s : State ι A) (i : ι) (pc : RemovePc A) : (note s i pc).buf = s.buf := by
  cases pc <;> rfl

theorem counted_of_next {a : QueueRuns.Action ι A} (h : next s a = some s') :
    Counted s.buf (access s a) s'.buf := by
  cases moves_of_next h with
  | insert | remove | ret => exact .idle rfl rfl rfl
  | inserting hinserter hnext | inserted hinserter hnext =>
    rw [access, hinserter]
    exact insert_counted hnext
  | removeStep hworker hnext =>
    rw [access, hworker, note_buf]
    exact remove_counted hnext

theorem slotsOf_append (side : Side) (log log' : List Access) :
    slotsOf side (log ++ log') = slotsOf side log ++ slotsOf side log' := by
  rw [slotsOf, List.filter_append, List.map_append]
  rfl

/-- The slot of one step, if it counts up. -/
theorem slotsOf_step {x : Option Access} {k : Side → ℕ} (side : Side)
    (hx : ∀ y ∈ x, y.slot = Int32.ofNat (k y.side + (slotsOf y.side x.toList).length) % n) :
    slotsOf side x.toList = (List.range' (k side + 1) (slotsOf side x.toList).length).map
      fun j => Int32.ofNat j % n := by
  cases x with
  | none => rfl
  | some y =>
    by_cases hy : (y.side = side && y.bumped) = true
    · have hone : slotsOf side (some y).toList = [y.slot] := by
        simp [slotsOf, hy]
      obtain ⟨rfl, -⟩ : y.side = side ∧ y.bumped = true := by simpa using hy
      have hslot := hx y rfl
      rw [hone] at hslot ⊢
      rw [hslot]
      rfl
    · have hnone : slotsOf side (some y).toList = [] := by
        simp [slotsOf, hy]
      rw [hnone]
      rfl

/-- From counters of known values, the operations of each side use the slots of the
numbers that follow, and every index is that of a number reached by then. -/
theorem recorded_slots (acts : List (QueueRuns.Action ι A)) : ∀ (s : State ι A) (log : List Access)
    (k : Side → ℕ), recorded s acts = some (t, log) →
    (∀ side : Side, side.counter s.buf = Int32.ofNat (k side)) →
    (∀ side, slotsOf side log = (List.range' (k side + 1) (slotsOf side log).length).map
      fun j => Int32.ofNat j % s.buf.n) ∧
    ∀ x ∈ log, ∃ j ≤ k x.side + (slotsOf x.side log).length, x.slot = Int32.ofNat j % s.buf.n := by
  induction acts with
  | nil =>
    intro s log k h _
    obtain ⟨-, rfl⟩ := Prod.mk.inj (Option.some.inj h)
    exact ⟨fun _ => rfl, nofun⟩
  | cons a acts ih =>
    intro s log k h hk
    simp only [recorded, Option.bind_eq_bind, Option.bind_eq_some_iff] at h
    obtain ⟨s', hnext, ⟨t', log'⟩, hrest, h⟩ := h
    obtain ⟨rfl, rfl⟩ : t' = t ∧ (access s a).toList ++ log' = log :=
      Prod.mk.inj (Option.some.inj h)
    have hstep := counted_of_next hnext
    have hk' : ∀ side : Side, side.counter s'.buf =
        Int32.ofNat (k side + (slotsOf side (access s a).toList).length) := by
      intro side
      rw [hstep.counter, hk, Int32.ofNat_add]
    obtain ⟨hslots, hall⟩ := ih s' log' _ hrest hk'
    rw [hstep.size] at hslots hall
    have hhead : ∀ x ∈ access s a, x.slot =
        Int32.ofNat (k x.side + (slotsOf x.side (access s a).toList).length) % s.buf.n := by
      intro x hx
      rw [hstep.slot x hx, hk']
    refine ⟨fun side => ?_, fun x hx => ?_⟩
    · rw [slotsOf_append, List.length_append, ← List.range'_append_1, List.map_append,
        ← slotsOf_step side hhead, ← Nat.add_right_comm, ← hslots]
    · rw [slotsOf_append, List.length_append]
      rcases List.mem_append.mp hx with hx | hx
      · exact ⟨_, by omega, hhead x (Option.mem_toList.mp hx)⟩
      · obtain ⟨j, hj, hslot⟩ := hall x hx
        exact ⟨j, by omega, hslot⟩

end Runs

section Ring

variable {ι A : Type} [DecidableEq ι] {s t : State ι A} {acts : List (QueueRuns.Action ι A)}
  {log : List Access}

/-- Up to the first value behind the wrap the remainder is that of the number. -/
theorem toInt_slot {k : ℕ} (hk : k ≤ 2 ^ 31) :
    (Int32.ofNat k % pendingConnectionN).toInt = ((k % 4096 : ℕ) : ℤ) := by
  have hn : pendingConnectionN.toInt = 4096 := by decide
  rw [Int32.toInt_mod, Int32.toInt_ofNat', hn]
  have hsize : Int32.size = 2 ^ 32 := rfl
  rcases Nat.lt_or_eq_of_le hk with hlt | rfl
  · have hmod : (k : ℤ).bmod Int32.size = k := by
      rw [hsize, Int.bmod]
      omega
    rw [hmod, Int.tmod_eq_emod_of_nonneg (by omega)]
    omega
  · decide

/-- The slots of a run from the start, by the numbers of the operations. -/
theorem started_slots (hs : Started pendingConnectionN s) (h : recorded s acts = some (t, log)) :
    (∀ side, slotsOf side log = (List.range' 1 (slotsOf side log).length).map
      fun j => Int32.ofNat j % pendingConnectionN) ∧
    ∀ x ∈ log, ∃ j ≤ (slotsOf x.side log).length, x.slot = Int32.ofNat j % pendingConnectionN := by
  obtain ⟨⟨slots, hbuf⟩, -⟩ := hs
  have hzero : ∀ side : Side, side.counter s.buf = Int32.ofNat 0 := by
    intro side
    rw [hbuf]
    cases side <;> rfl
  have hsize : s.buf.n = pendingConnectionN := by rw [hbuf]; rfl
  obtain ⟨hslots, hall⟩ := recorded_slots acts s log (fun _ => 0) h hzero
  rw [hsize] at hslots hall
  simp only [Nat.zero_add] at hslots hall
  exact ⟨hslots, hall⟩

/-- The operation that counts up to 2^31 + 1 has a negative index. -/
theorem length_le_of_inRing (hs : Started pendingConnectionN s)
    (h : recorded s acts = some (t, log)) (hring : InRing pendingConnectionN log) (side : Side) :
    (slotsOf side log).length ≤ 2 ^ 31 := by
  by_contra hlong
  have hmem : 2 ^ 31 + 1 ∈ List.range' 1 (slotsOf side log).length := by
    rw [List.mem_range'_1]
    omega
  have hslot := List.mem_map_of_mem (f := fun j => Int32.ofNat j % pendingConnectionN) hmem
  rw [← (started_slots hs h).1 side, slotsOf, List.mem_map] at hslot
  obtain ⟨x, hx, heq⟩ := hslot
  have hnonneg := (hring.inside x (List.mem_filter.mp hx).1).1
  rw [heq] at hnonneg
  exact absurd hnonneg (by decide)

/-- The indices of a run stay in the ring exactly when neither counter has gone up
more than 2^31 times. -/
theorem in_ring_iff (hs : Started pendingConnectionN s) (h : recorded s acts = some (t, log)) :
    InRing pendingConnectionN log ↔ ∀ side, (slotsOf side log).length ≤ 2 ^ 31 := by
  refine ⟨length_le_of_inRing hs h, fun hle => ?_⟩
  obtain ⟨hslots, hall⟩ := started_slots hs h
  have hn : pendingConnectionN.toInt = 4096 := by decide
  refine ⟨fun x hx => ?_, fun side => ?_⟩
  · obtain ⟨j, hj, hslot⟩ := hall x hx
    have hvalue := toInt_slot (hj.trans (hle x.side))
    rw [hslot, Int32.le_iff_toInt_le, Int32.lt_iff_toInt_lt, hvalue, hn]
    have h0 : (0 : Int32).toInt = 0 := rfl
    omega
  · rw [hslots side, List.isChain_map, List.isChain_iff_getElem]
    intro i hi
    have hi' : i + 1 < (slotsOf side log).length := by simpa only [List.length_range'] using hi
    have hlong := hle side
    simp only [List.getElem_range', Nat.one_mul]
    rw [toInt_slot (by omega), toInt_slot (by omega), hn]
    omega

end Ring

section Endless

def start : State Unit Unit where
  buf := mutexInit (fun _ => ⟨0, ()⟩) pendingConnectionN
  inserter := none
  workers _ := none
  inserted := []
  entries := []
  ticket _ := 0

theorem started_start : Started pendingConnectionN start := ⟨⟨_, rfl⟩, rfl, fun _ => rfl, rfl, rfl⟩

def turn : List (QueueRuns.Action Unit Unit) :=
  .insert ⟨5, ()⟩ :: List.replicate 7 .insertStep ++
    (.remove () :: List.replicate 7 (.removeStep ()) ++ [.ret ()])

structure Idle (s : State Unit Unit) : Prop where
  n : s.buf.n = pendingConnectionN
  mutex : s.buf.mutex = 1
  emptySlots : s.buf.emptySlots = 4096
  items : s.buf.items = 0
  inserter : s.inserter = none
  workers : s.workers = fun _ => none

theorem idle_turn {s : State Unit Unit} (hs : Idle s) : ∃ t log, recorded s turn = some (t, log) ∧
    Idle t ∧ ∀ side, (slotsOf side log).length = 1 := by
  obtain ⟨⟨slots, n, front, rear, mutex, emptySlots, items⟩, inserter, workers, inserted, entries,
    ticket⟩ := s
  obtain ⟨rfl, rfl, rfl, rfl, rfl, rfl⟩ := hs
  refine ⟨_, _, rfl, ⟨rfl, rfl, rfl, rfl, rfl, rfl⟩, fun side => ?_⟩
  cases side <;> rfl

theorem recorded_append {s t : State Unit Unit} {acts acts' : List (QueueRuns.Action Unit Unit)}
    {log : List Access} (h : recorded s acts = some (t, log)) :
    recorded s (acts ++ acts') = (recorded t acts').map fun r => (r.1, log ++ r.2) := by
  induction acts generalizing s log with
  | nil =>
    obtain ⟨rfl, rfl⟩ : s = t ∧ [] = log := Prod.mk.inj (Option.some.inj h)
    rw [List.nil_append]
    cases recorded s acts' <;> rfl
  | cons a acts ih =>
    simp only [recorded, Option.bind_eq_bind, Option.bind_eq_some_iff] at h
    obtain ⟨s', hnext, ⟨t', log'⟩, hrest, h⟩ := h
    obtain ⟨rfl, rfl⟩ : t' = t ∧ (access s a).toList ++ log' = log :=
      Prod.mk.inj (Option.some.inj h)
    rw [List.cons_append, recorded, hnext, Option.bind_eq_bind, Option.bind_some, ih hrest]
    cases recorded t' acts' <;> simp

/-- Connections can come and go for ever. -/
theorem turns (k : ℕ) : ∃ t log, recorded start (List.replicate k turn).flatten = some (t, log) ∧
    Idle t ∧ ∀ side, (slotsOf side log).length = k := by
  induction k with
  | zero => exact ⟨start, [], rfl, ⟨rfl, rfl, rfl, rfl, rfl, rfl⟩, fun _ => rfl⟩
  | succ k ih =>
    obtain ⟨t, log, hrun, hidle, hlen⟩ := ih
    obtain ⟨t', log', hturn, hidle', hone⟩ := idle_turn hidle
    refine ⟨t', log ++ log', ?_, hidle', fun side => ?_⟩
    · rw [List.replicate_succ', List.flatten_append, List.flatten_singleton, recorded_append hrun,
        hturn]
      rfl
    · rw [slotsOf_append, List.length_append, hlen, hone]

/-- After 2^31 + 1 connections the indices have left the ring. -/
theorem leaves_ring : ∃ acts t log, recorded start acts = some (t, log) ∧
    ¬ InRing pendingConnectionN log := by
  obtain ⟨t, log, hrun, -, hlen⟩ := turns (2 ^ 31 + 1)
  refine ⟨_, t, log, hrun, fun hring => ?_⟩
  have hle := length_le_of_inRing started_start hrun hring .insertion
  rw [hlen] at hle
  omega

theorem in_ring_two : ∃ t log, recorded start (turn ++ turn) = some (t, log) ∧
    InRing pendingConnectionN log ∧ slotsOf .insertion log = [1, 2] := by
  obtain ⟨t, log, hrun, -, hlen⟩ := turns 2
  have hring := (in_ring_iff started_start hrun).mpr fun side => by
    rw [hlen]
    omega
  have hslots := (started_slots started_start hrun).1 .insertion
  rw [hlen] at hslots
  exact ⟨t, log, hrun, hring, hslots.trans (by decide)⟩

end Endless

end SystemSoftware.QueueIndices
