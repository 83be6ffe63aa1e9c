import SystemSoftware.ArgumentBlocks
import SystemSoftware.SessionService

/-!
`free_args` over a session of the thread-based stock server. Each request that is
answered ends with a call of `free_args`, whatever `parser` has returned. The call
releases what the parser has allocated for the request, unless the request is an empty
line, names several commands or names none while `argc` is too large.
-/
namespace SystemSoftware.ArgumentRuns

open DecimalText StockTree RioBuffer BlockLedger ArgumentBlocks
open RequestParser (ArgsPtr Freeable)
open SessionService (Session Event Started reply parsed pending stored socketClose accepted
  accepted_started willing)

/-- A session, what `cnct.args` points to, and the blocks. The status of the pointer that
the session itself keeps is not used. -/
structure Serving where
  session : Session
  args : Option ℕ
  heap : Blocks

/-- A call of `free_args`: the request and what was left of the one before, the
identifiers that the parser has allocated for the request, and those passed to `free`. -/
structure Call where
  rc : Int
  buf : Text
  argc : ℕ
  args : Option ℕ
  allocated : List ℕ
  released : List ℕ
  returned : Bool

def Call.Exact (c : Call) : Prop := c.returned = true ∧ c.released.Perm c.allocated

/-- An empty line comes first and finds nothing left, another request matches at most one
command, and one that matches none finds an `argc` that stays in its vector. -/
def Call.Clean (c : Call) : Prop :=
  if c.rc = 1 then c.args = none ∧ c.argc = 0
  else (matching c.buf).length ≤ 1 ∧ (matching c.buf = [] → c.argc ≤ 4)

def call (rc : Int) (buf : Text) (before after : Connection) : Call where
  rc := rc
  buf := buf
  argc := before.cmd.argc
  args := before.args
  allocated := before.heap.allocatedTo after.heap
  released := (freeArgs after).1
  returned := (freeArgs after).2.isSome

/-- The part of an iteration of `service` behind `rio_readlineb`. -/
def answer (s : Serving) (e : Event) (rc : Int) : Option (Serving × List Call) :=
  let before : Connection := ⟨s.session.cnct, s.args, s.heap⟩
  match parser s.session.buf rc before with
  | none => some ({ s with session := { s.session with phase := .undefined } }, [])
  | some (st, after) => do
    let session ← reply (parsed s.session rc after.cmd) e st
    if session.phase = .running then
      let calls := [call rc s.session.buf before after]
      match (freeArgs after).2 with
      | none => some (⟨{ session with phase := .undefined }, after.args, after.heap⟩, calls)
      | some heap => some (⟨session, after.args, heap⟩, calls)
    else some (⟨session, after.args, after.heap⟩, [])

/-- One iteration of the loop of `service`; `none` while it waits for the client. -/
def next (s : Serving) (e : Event) : Option (Serving × List Call) := do
  if s.session.phase ≠ .running then none
  else
    let line ← rioReadlineb s.session.rp maxline (pending s.session)
    let session := { s.session with rp := line.rio, reads := line.outcomes }
    if line.rc ≠ 0 then answer ⟨stored session line, s.args, s.heap⟩ e line.rc
    else some (⟨{ (socketClose session).1 with phase := .returned }, s.args, s.heap⟩, [])

/-- The session when it has met the events, and the calls of `free_args` so far. -/
def service (s : Serving) (events : List Event) : Serving × List Call :=
  events.foldl (fun r e =>
    match next r.1 e with
    | some (s, calls) => (s, r.2 ++ calls)
    | none => r) (s, [])

section Calls

variable {buf : Text} {rc : Int} {st : Status} {before after : Connection}

/-- The strings and the vector are all that was allocated if the strings come right behind
the vector. -/
theorem released_perm (v a n : ℕ) (hbefore : v < a) :
    (List.range' a n ++ [v]).Perm (List.range' v (a + n - v)) ↔ a = v + 1 := by
  constructor
  · intro hperm
    have hlen := hperm.length_eq
    rw [List.length_append, List.length_range', List.length_range', List.length_singleton] at hlen
    omega
  · rintro rfl
    rw [show v + 1 + n - v = n + 1 by omega, List.range'_succ]
    exact List.perm_append_singleton v _

/-- A call is exact if and only if its request is clean. -/
theorem call_exact_iff (hparse : parser buf rc before = some (st, after)) :
    (call rc buf before after).Exact ↔ (call rc buf before after).Clean := by
  rw [Call.Exact, Call.Clean]
  change (freeArgs after).2.isSome = true ∧
    (freeArgs after).1.Perm (before.heap.allocatedTo after.heap) ↔
    if rc = 1 then before.args = none ∧ before.cmd.argc = 0
    else (matching buf).length ≤ 1 ∧ (matching buf = [] → before.cmd.argc ≤ 4)
  by_cases hrc : rc = 1
  · rw [parser, if_pos hrc] at hparse
    obtain ⟨-, rfl⟩ := Prod.mk.inj (Option.some.inj hparse)
    have hnone : before.heap.allocatedTo before.heap = [] := by
      rw [Heap.allocatedTo, Nat.sub_self]
      rfl
    rw [if_pos hrc, hnone, List.perm_nil]
    exact freeArgs_nothing
  · obtain ⟨n, hheld, hn, hfour⟩ := parser_held hrc hparse
    rw [if_neg hrc, ← hfour, Heap.allocatedTo, hheld.fresh]
    by_cases hargc : after.cmd.argc ≤ 4
    · obtain ⟨h, hfree⟩ := freeArgs_held hheld hn hargc
      rw [hfree, released_perm _ _ n hheld.before, and_iff_left hargc]
      constructor
      · rintro ⟨-, ha⟩
        omega
      · exact fun hk => ⟨rfl, by omega⟩
    · rw [freeArgs_outside (Nat.lt_of_not_le hargc)]
      exact ⟨fun h => absurd h.1 Bool.false_ne_true, fun h => absurd h.2 hargc⟩

/-- What a session knows of a pointer that it has released or never set. -/
def stale : Option ℕ → ArgsPtr
  | none => .null
  | some _ => .stray

/-- The session, which keeps only the status of the pointer, takes `free_args` to be
defined exactly where the blocks allow it. -/
theorem freeArgs_freeable (hparse : parser buf rc before = some (st, after))
    (hdead : ∀ v, before.args = some v → before.heap.cells v = none) :
    (freeArgs after).2.isSome = true ↔
      Freeable (if rc = 1 then stale before.args else .live) after.cmd.argc := by
  by_cases hrc : rc = 1
  · rw [parser, if_pos hrc] at hparse
    obtain ⟨-, rfl⟩ := Prod.mk.inj (Option.some.inj hparse)
    rw [if_pos hrc]
    cases hargs : before.args with
    | none =>
      cases hargc : before.cmd.argc with
      | zero => simp [freeArgs, freeLoop, hargs, hargc, stale, Freeable]
      | succ argc => simp [freeArgs, freeLoop, entry, hargs, hargc, stale, Freeable]
    | some v =>
      have hcell := hdead v hargs
      cases hargc : before.cmd.argc with
      | zero => simp [freeArgs, freeLoop, hargs, hargc, stale, Freeable, Heap.release_dead hcell]
      | succ argc => simp [freeArgs, freeLoop, entry, hargs, hargc, hcell, stale, Freeable]
  · obtain ⟨n, hheld, hn, -⟩ := parser_held hrc hparse
    rw [if_neg hrc, Freeable]
    by_cases hargc : after.cmd.argc ≤ 4
    · obtain ⟨h, hfree⟩ := freeArgs_held hheld hn hargc
      rw [hfree]
      exact ⟨fun _ => hargc, fun _ => rfl⟩
    · rw [freeArgs_outside (Nat.lt_of_not_le hargc)]
      exact ⟨fun h => absurd h Bool.false_ne_true, fun h => absurd h hargc⟩

/-- The parser takes no identifier back. -/
theorem parser_fresh (hparse : parser buf rc before = some (st, after)) :
    before.heap.fresh ≤ after.heap.fresh := by
  by_cases hrc : rc = 1
  · rw [parser, if_pos hrc] at hparse
    obtain ⟨-, rfl⟩ := Prod.mk.inj (Option.some.inj hparse)
    exact le_rfl
  · obtain ⟨n, hheld, -⟩ := parser_held hrc hparse
    have hfresh := hheld.fresh
    omega

end Calls

section Runs

variable {s s' : Serving} {e : Event} {rc : Int} {calls : List Call}

/-- What an iteration adds: no call, or one after a parser call on the request that was read. -/
inductive Iterated (s s' : Serving) : List Call → Prop
  | none (hfresh : s.heap.fresh ≤ s'.heap.fresh) : Iterated s s' []
  | one {buf : Text} {rc : Int} {st : Status} {after : Connection}
      (hparse : parser buf rc ⟨s.session.cnct, s.args, s.heap⟩ = some (st, after))
      (hfresh : after.heap.fresh ≤ s'.heap.fresh) :
      Iterated s s' [call rc buf ⟨s.session.cnct, s.args, s.heap⟩ after]

theorem freeLoop_fresh {args : Option ℕ} : ∀ {left i : ℕ} {h h' : Blocks},
    (freeLoop args left i h).2 = some h' → h'.fresh = h.fresh := by
  intro left
  induction left with
  | zero =>
    intro i h h' hloop
    rw [Option.some.inj hloop]
  | succ left ih =>
    intro i h h' hloop
    rw [freeLoop] at hloop
    split at hloop
    · cases hloop
    · exact ih hloop
    · next id _ =>
      split at hloop
      · cases hloop
      · next h₁ hrelease => exact (ih hloop).trans (Heap.release_fresh hrelease)

theorem freeArgs_fresh {c : Connection} {h : Blocks} (hfree : (freeArgs c).2 = some h) :
    h.fresh = c.heap.fresh := by
  rw [freeArgs] at hfree
  split at hfree
  · cases hfree
  · next hloop _ =>
    rw [← Option.some.inj hfree]
    exact freeLoop_fresh hloop
  · next hloop _ => exact (Heap.release_fresh hfree).trans (freeLoop_fresh hloop)

theorem answer_iterated (h : answer s e rc = some (s', calls)) : Iterated s s' calls := by
  rw [answer] at h
  split at h
  · obtain ⟨rfl, rfl⟩ := Prod.mk.inj (Option.some.inj h)
    exact .none le_rfl
  · next st after hparse =>
    obtain ⟨session, -, h⟩ := Option.bind_eq_some_iff.mp h
    dsimp only at h
    split at h
    · split at h
      · obtain ⟨rfl, rfl⟩ := Prod.mk.inj (Option.some.inj h)
        exact .one hparse le_rfl
      · next heap hfree =>
        obtain ⟨rfl, rfl⟩ := Prod.mk.inj (Option.some.inj h)
        exact .one hparse (freeArgs_fresh hfree).ge
    · obtain ⟨rfl, rfl⟩ := Prod.mk.inj (Option.some.inj h)
      exact .none (parser_fresh hparse)

theorem next_iterated (h : next s e = some (s', calls)) : Iterated s s' calls := by
  rw [next] at h
  split at h
  · cases h
  · obtain ⟨line, -, h⟩ := Option.bind_eq_some_iff.mp h
    dsimp only at h
    split at h
    · cases answer_iterated h with
      | none hfresh => exact .none hfresh
      | one hparse hfresh => exact .one hparse hfresh
    · obtain ⟨rfl, rfl⟩ := Prod.mk.inj (Option.some.inj h)
      exact .none le_rfl

theorem service_append (s : Serving) (events : List Event) (e : Event) :
    service s (events ++ [e]) =
      match next (service s events).1 e with
      | some (s', calls) => (s', (service s events).2 ++ calls)
      | none => service s events := by
  rw [service, List.foldl_append]
  rfl

/-- What holds behind the iterations so far: each call is exact if and only if it is clean,
and no identifier has been given out twice. -/
structure Accounted (s : Serving) (calls : List Call) : Prop where
  exact : ∀ c ∈ calls, c.Exact ↔ c.Clean
  nodup : (calls.flatMap Call.allocated).Nodup
  below : ∀ id ∈ calls.flatMap Call.allocated, id < s.heap.fresh

theorem Accounted.iterated {before : List Call} (h : Accounted s before)
    (hstep : Iterated s s' calls) : Accounted s' (before ++ calls) := by
  cases hstep with
  | none hfresh =>
    rw [List.append_nil]
    exact ⟨h.exact, h.nodup, fun id hid => (h.below id hid).trans_le hfresh⟩
  | one hparse hfresh =>
    have hle := parser_fresh hparse
    refine ⟨fun c hc => ?_, ?_, fun id hid => ?_⟩
    · rcases List.mem_append.mp hc with hc | hc
      · exact h.exact c hc
      · rw [List.mem_singleton.mp hc]
        exact call_exact_iff hparse
    · refine nodup_flatMap_concat h.nodup h.below Heap.nodup_allocatedTo fun id hid => ?_
      exact ((Heap.mem_allocatedTo hle).mp hid).1
    · rw [List.flatMap_append, List.flatMap_singleton, List.mem_append] at hid
      rcases hid with hid | hid
      · exact ((h.below id hid).trans_le hle).trans_le hfresh
      · exact ((Heap.mem_allocatedTo hle).mp hid).2.trans_le hfresh

theorem service_accounted (s : Serving) (events : List Event) :
    Accounted (service s events).1 (service s events).2 := by
  induction events using List.reverseRecOn with
  | nil =>
    exact ⟨fun _ hc => absurd hc List.not_mem_nil, List.nodup_nil,
      fun _ hid => absurd hid List.not_mem_nil⟩
  | append_singleton events e ih =>
    rw [service_append]
    split
    · next s' calls hnext => exact ih.iterated (next_iterated hnext)
    · exact ih

/-- Each call of `free_args` releases what the parser has allocated in the same iteration,
no identifier is released twice, and none that was not allocated. -/
structure ReleasedOnce (calls : List Call) : Prop where
  exact : ∀ c ∈ calls, c.Exact
  nodup : (calls.flatMap Call.released).Nodup
  allocated : ∀ id ∈ calls.flatMap Call.released, id ∈ calls.flatMap Call.allocated

/-- In a session, from whatever is on the stack, the argument blocks are released exactly
once if and only if every request that is answered is clean. -/
theorem releasedOnce_iff (s : Serving) (events : List Event) :
    ReleasedOnce (service s events).2 ↔ ∀ c ∈ (service s events).2, c.Clean := by
  have h := service_accounted s events
  constructor
  · exact fun hreleased c hc => (h.exact c hc).mp (hreleased.exact c hc)
  · intro hclean
    have hexact : ∀ c ∈ (service s events).2, c.Exact := fun c hc =>
      (h.exact c hc).mpr (hclean c hc)
    obtain ⟨hnodup, hallocated⟩ := released_once h.nodup fun c hc => (hexact c hc).2
    exact ⟨hexact, hnodup, hallocated⟩

end Runs

def typing : Serving :=
  ⟨accepted [.data 102 (ascii "oo\n"), .data 10 [], .eof], none, ⟨0, fun _ => none⟩⟩

/-- The vector of the first line is released again for the empty line. -/
theorem released_twice : ∃ s events, Started s.session ∧ (∀ e ∈ events, .fail ∉ e.writes) ∧
    (service s events).2.flatMap Call.released = [0, 0] ∧
    ¬ ReleasedOnce (service s events).2 := by
  have hcalls : (service typing [willing, willing]).2.flatMap Call.released = [0, 0] := by decide
  refine ⟨typing, [willing, willing], accepted_started _, ?_, hcalls, fun h => ?_⟩
  · decide
  · have hnodup := h.nodup
    rw [hcalls] at hnodup
    exact absurd hnodup (by decide)

end SystemSoftware.ArgumentRuns
