import SystemSoftware.DecimalText

/-!
The buffered reader of the stock servers: rio_read and rio_readlineb of util.c.
A reader holds the bytes it has read and not handed out. What the `read` calls
will return is a list of outcomes; `none` is a call that waits for the next one.
-/
namespace SystemSoftware.RioBuffer

open DecimalText

abbrev rioBufsize : ℕ := 8192

/-- The result of one `read`: some bytes, the end of the file, or a failure,
with `errno` EINTR or another one. -/
inductive Outcome
  | data (c : UInt8) (r : Text)
  | eof
  | eintr
  | error

/-- The bytes between `rio_bufptr` and the end of what was read. -/
structure Rio where
  unread : Text

def rioReadinitb : Rio := ⟨[]⟩

/-- The `read` loop of `rio_read`: the value of `rio_cnt` that ends it, and the bytes read. -/
def rioFill : List Outcome → Option (Int × Text × List Outcome)
  | [] => none
  | .eintr :: outcomes => rioFill outcomes
  | .error :: outcomes => some (-1, [], outcomes)
  | .eof :: outcomes => some (0, [], outcomes)
  | .data c r :: outcomes => some (r.length + 1, c :: r, outcomes)

/-- `rio_read`: the result, the bytes copied, and the reader and the outcomes left. -/
def rioRead (rp : Rio) (n : ℕ) (outcomes : List Outcome) :
    Option (Int × Text × Rio × List Outcome) := do
  let (cnt, unread, outcomes) ←
    if rp.unread = [] then rioFill outcomes
    else some ((rp.unread.length : Int), rp.unread, outcomes)
  if cnt ≤ 0 then some (cnt, [], ⟨[]⟩, outcomes)
  else some (min n cnt, unread.take n, ⟨unread.drop n⟩, outcomes)

/-- The result of `rio_readlineb`, the bytes stored before a terminator, and the
reader and the outcomes left. -/
structure Line where
  rc : Int
  bytes : Text
  rio : Rio
  outcomes : List Outcome

/-- The loop of `rio_readlineb` with `left` more rounds, when `n - 1` bytes are stored. -/
def readlineLoop : ℕ → ℕ → Text → Rio → List Outcome → Option Line
  | 0, n, bytes, rp, outcomes => some ⟨n - 1, bytes, rp, outcomes⟩
  | left + 1, n, bytes, rp, outcomes => do
    let (rc, c, rp, outcomes) ← rioRead rp 1 outcomes
    if rc = 1 then
      if c = [newline] then some ⟨n, bytes ++ c, rp, outcomes⟩
      else readlineLoop left (n + 1) (bytes ++ c) rp outcomes
    else if rc = 0 then
      if n = 1 then some ⟨0, bytes, rp, outcomes⟩
      else some ⟨n - 1, bytes, rp, outcomes⟩
    else some ⟨-1, bytes, rp, outcomes⟩

def rioReadlineb (rp : Rio) (maxlen : ℕ) (outcomes : List Outcome) : Option Line :=
  readlineLoop (maxlen - 1) 1 [] rp outcomes

theorem rioRead_unread (c : UInt8) (u : Text) (o : List Outcome) :
    rioRead ⟨c :: u⟩ 1 o = some (1, [c], ⟨u⟩, o) := by
  have hcnt : ¬ ((u.length : Int) + 1 ≤ 0) := by omega
  simp [rioRead, hcnt]

theorem rioRead_data (c : UInt8) (u : Text) (o : List Outcome) :
    rioRead ⟨[]⟩ 1 (.data c u :: o) = some (1, [c], ⟨u⟩, o) := by
  have hcnt : ¬ ((u.length : Int) + 1 ≤ 0) := by omega
  simp [rioRead, rioFill, hcnt]

/-- A line that is in the reader is copied to its newline. -/
theorem readlineLoop_line {l : Text} (hl : newline ∉ l) (u : Text) (o : List Outcome) :
    ∀ (left n : ℕ) (bytes : Text), l.length < left →
      readlineLoop left n bytes ⟨l ++ newline :: u⟩ o =
        some ⟨((n + l.length : ℕ) : Int), bytes ++ (l ++ [newline]), ⟨u⟩, o⟩ := by
  induction l with
  | nil =>
    intro left n bytes hleft
    obtain ⟨left, rfl⟩ := Nat.exists_eq_succ_of_ne_zero (Nat.ne_of_gt hleft)
    simp [readlineLoop, rioRead_unread]
  | cons c l ih =>
    intro left n bytes hleft
    rw [List.length_cons] at hleft
    obtain ⟨left, rfl⟩ := Nat.exists_eq_succ_of_ne_zero (show left ≠ 0 by omega)
    rw [List.mem_cons, not_or] at hl
    have hc : [c] ≠ [newline] := fun heq => hl.1 (List.cons.inj heq).1.symm
    simp only [List.cons_append, readlineLoop, rioRead_unread, Option.bind_eq_bind,
      Option.bind_some, if_true, if_neg hc]
    rw [ih hl.2 left (n + 1) (bytes ++ [c]) (by omega), List.append_assoc, List.length_cons,
      Nat.add_right_comm]
    rfl

/-- Bytes still to be read behave like bytes in the reader. -/
theorem readlineLoop_data {left : ℕ} (hleft : left ≠ 0) (n : ℕ) (bytes : Text) (c : UInt8)
    (u : Text) (o : List Outcome) :
    readlineLoop left n bytes ⟨[]⟩ (.data c u :: o) = readlineLoop left n bytes ⟨c :: u⟩ o := by
  obtain ⟨left, rfl⟩ := Nat.exists_eq_succ_of_ne_zero hleft
  simp only [readlineLoop, rioRead_data, rioRead_unread]

/-- How much a read can at most use up: the bytes, and the outcomes themselves. -/
def Outcome.weight : Outcome → ℕ
  | .data _ r => r.length + 2
  | _ => 1

def weight (rp : Rio) (outcomes : List Outcome) : ℕ :=
  rp.unread.length + (outcomes.map Outcome.weight).sum

theorem rioFill_weight {o o' : List Outcome} {cnt : Int} {unread : Text}
    (h : rioFill o = some (cnt, unread, o')) : weight ⟨unread⟩ o' < weight ⟨[]⟩ o := by
  induction o with
  | nil => cases h
  | cons x o ih =>
    cases x with
    | eintr =>
      have hlt := ih h
      simp only [weight, List.map_cons, List.sum_cons, Outcome.weight] at hlt ⊢
      omega
    | data c r =>
      obtain ⟨-, h⟩ := Prod.mk.inj (Option.some.inj h)
      obtain ⟨rfl, rfl⟩ := Prod.mk.inj h
      simp only [weight, List.map_cons, List.sum_cons, Outcome.weight, List.length_cons,
        List.length_nil]
      omega
    | eof | error =>
      obtain ⟨-, h⟩ := Prod.mk.inj (Option.some.inj h)
      obtain ⟨rfl, rfl⟩ := Prod.mk.inj h
      simp only [weight, List.map_cons, List.sum_cons, Outcome.weight]
      omega

/-- Reading a byte, the end of the file or a failure uses something up. -/
theorem rioRead_weight {rp rp' : Rio} {o o' : List Outcome} {rc : Int} {c : Text}
    (h : rioRead rp 1 o = some (rc, c, rp', o')) : weight rp' o' < weight rp o := by
  by_cases hempty : rp.unread = []
  · simp only [rioRead, if_pos hempty, Option.bind_eq_bind, Option.bind_eq_some_iff] at h
    obtain ⟨⟨cnt, unread, o₁⟩, hfill, h⟩ := h
    have hlt := rioFill_weight hfill
    simp only [weight, List.length_nil] at hlt
    split at h
    · simp only [Option.some.injEq, Prod.mk.injEq] at h
      obtain ⟨-, -, rfl, rfl⟩ := h
      simp only [weight, hempty, List.length_nil]
      omega
    · simp only [Option.some.injEq, Prod.mk.injEq] at h
      obtain ⟨-, -, rfl, rfl⟩ := h
      simp only [weight, hempty, List.length_drop, List.length_nil]
      omega
  · have hpos := List.length_pos_iff.mpr hempty
    have hcnt : ¬ (rp.unread.length : Int) ≤ 0 := by omega
    simp only [rioRead, if_neg hempty, Option.bind_eq_bind, Option.bind_some, if_neg hcnt,
      Option.some.injEq, Prod.mk.injEq] at h
    obtain ⟨-, -, rfl, rfl⟩ := h
    simp only [weight, List.length_drop]
    omega

/-- Every call of `rio_readlineb` that returns uses something up. -/
theorem rioReadlineb_weight {rp : Rio} {maxlen : ℕ} {o : List Outcome} {line : Line}
    (hmax : 2 ≤ maxlen) (h : rioReadlineb rp maxlen o = some line) :
    weight line.rio line.outcomes < weight rp o := by
  have hloop : ∀ (left n : ℕ) (bytes : Text) (rp : Rio) (o : List Outcome),
      readlineLoop left n bytes rp o = some line → left ≠ 0 →
        weight line.rio line.outcomes < weight rp o := by
    intro left
    induction left with
    | zero => exact fun _ _ _ _ _ hleft => absurd rfl hleft
    | succ left ih =>
      intro n bytes rp o h _
      simp only [readlineLoop, Option.bind_eq_bind, Option.bind_eq_some_iff] at h
      obtain ⟨⟨rc, c, rp', o'⟩, hread, h⟩ := h
      have hlt := rioRead_weight hread
      split at h
      · split at h
        · rw [← Option.some.inj h]
          exact hlt
        · cases left with
          | zero =>
            rw [readlineLoop, Option.some.injEq] at h
            rw [← h]
            exact hlt
          | succ left => exact (ih _ _ _ _ h (Nat.succ_ne_zero _)).trans hlt
      split at h
      · split at h
        · rw [← Option.some.inj h]
          exact hlt
        · rw [← Option.some.inj h]
          exact hlt
      · rw [← Option.some.inj h]
        exact hlt
  exact hloop (maxlen - 1) 1 [] rp o h (by omega)

end SystemSoftware.RioBuffer
