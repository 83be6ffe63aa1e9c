import SystemSoftware.LineStream

/-!
The block reader of the clients: rio_readnb of csapp.c over the rio_read that the servers
have too. A call waits as long as fewer than `n` bytes have come, and then takes exactly
the next `n` bytes of the stream, whatever pieces they come in; the end of the file and a
failure end it earlier.
-/
namespace SystemSoftware.RioBlocks

open DecimalText RioBuffer RioLines LineStream

structure Block where
  rc : Int
  bytes : Text
  rio : Rio
  outcomes : List Outcome

/-- The loop of `rio_readnb` with `nleft` bytes to read. Each round copies a byte at least,
so there are no more rounds than bytes. -/
def readnbLoop (n : ℕ) : ℕ → ℕ → Text → Rio → List Outcome → Option Block
  | _, 0, bytes, rp, outcomes => some ⟨n, bytes, rp, outcomes⟩
  | 0, _ + 1, _, _, _ => none
  | rounds + 1, nleft + 1, bytes, rp, outcomes => do
    let (nread, got, rp, outcomes) ← rioRead rp (nleft + 1) outcomes
    if nread < 0 then some ⟨-1, bytes ++ got, rp, outcomes⟩
    else if nread = 0 then some ⟨n - (nleft + 1 : ℕ), bytes ++ got, rp, outcomes⟩
    else readnbLoop n rounds (nleft + 1 - nread.toNat) (bytes ++ got) rp outcomes

def rioReadnb (rp : Rio) (n : ℕ) (outcomes : List Outcome) : Option Block :=
  readnbLoop n n n [] rp outcomes

section Reads

variable {u : Text} {q : List Outcome} {n : ℕ}

theorem rioRead_skip (n : ℕ) (o : List Outcome) :
    rioRead ⟨[]⟩ n (.eintr :: o) = rioRead ⟨[]⟩ n o := by
  simp [rioRead, rioFill]

theorem rioRead_held {u : Text} (hu : u ≠ []) (n : ℕ) (o : List Outcome) :
    rioRead ⟨u⟩ n o = some (((min n u.length : ℕ) : Int), u.take n, ⟨u.drop n⟩, o) := by
  simp [rioRead, hu]

theorem rioRead_chunk (n : ℕ) (c : UInt8) (r : Text) (o : List Outcome) :
    rioRead ⟨[]⟩ n (.data c r :: o) = rioRead ⟨c :: r⟩ n o := by
  simp [rioRead, rioFill]

/-- While there are bytes, a read copies some of them. -/
theorem rioRead_some (hquiet : Quiet q) (hn : 0 < n) (hne : u ++ received q ≠ [])
    (E : List Outcome) :
    ∃ x u' q', Quiet q' ∧ x ++ (u' ++ received q') = u ++ received q ∧ 0 < x.length ∧
      x.length ≤ n ∧ rioRead ⟨u⟩ n (q ++ E) = some ((x.length : Int), x, ⟨u'⟩, q' ++ E) := by
  by_cases hu : u = []
  · subst hu
    induction q with
    | nil => exact absurd rfl hne
    | cons o q ih =>
      cases o with
      | eintr =>
        obtain ⟨x, u', q', hq', hx, hpos, hle, hread⟩ := ih (quiet_eintr.mp hquiet) hne
        exact ⟨x, u', q', hq', hx, hpos, hle, (rioRead_skip n _).trans hread⟩
      | data c r =>
        have hrest : Quiet q := (quiet_append.mp (show Quiet ([.data c r] ++ q) from hquiet)).2
        refine ⟨(c :: r).take n, (c :: r).drop n, q, hrest, ?_, ?_, ?_, ?_⟩
        · rw [← List.append_assoc, List.take_append_drop]
          rfl
        · simp only [List.length_take, List.length_cons]
          omega
        · simp only [List.length_take]
          omega
        · rw [List.cons_append, rioRead_chunk, rioRead_held (List.cons_ne_nil c r),
            List.length_take]
      | eof => exact absurd List.mem_cons_self hquiet.1
      | error => exact absurd List.mem_cons_self hquiet.2
  · have hlen := List.length_pos_of_ne_nil hu
    refine ⟨u.take n, u.drop n, q, hquiet, ?_, ?_, ?_, ?_⟩
    · rw [← List.append_assoc, List.take_append_drop]
    · simp only [List.length_take]
      omega
    · simp only [List.length_take]
      omega
    · rw [rioRead_held hu, List.length_take]

/-- A read without bytes goes on waiting, or meets the end of the file or a failure. -/
theorem rioRead_dry (hquiet : Quiet q) (hnone : received q = []) (n : ℕ) (E : List Outcome) :
    rioRead ⟨[]⟩ n (q ++ E) = rioRead ⟨[]⟩ n E := by
  induction q with
  | nil => rfl
  | cons o q ih =>
    cases o with
    | eintr => exact (rioRead_skip n _).trans (ih (quiet_eintr.mp hquiet) hnone)
    | data c r => cases hnone
    | eof => exact absurd List.mem_cons_self hquiet.1
    | error => exact absurd List.mem_cons_self hquiet.2

end Reads

section Loop

variable {u : Text} {q : List Outcome} {n rounds nleft : ℕ} {bytes : Text}

/-- The rounds that copy bytes: all that the loop wants, or all that have come. -/
theorem readnbLoop_bytes (E : List Outcome) : ∀ (rounds nleft : ℕ) (bytes : Text) {u : Text}
    {q : List Outcome}, nleft ≤ rounds → Quiet q →
    ∃ rounds' u' q', Quiet q' ∧ nleft - (u ++ received q).length ≤ rounds' ∧
      u' ++ received q' = (u ++ received q).drop nleft ∧
      readnbLoop n rounds nleft bytes ⟨u⟩ (q ++ E) =
        readnbLoop n rounds' (nleft - (u ++ received q).length)
          (bytes ++ (u ++ received q).take nleft) ⟨u'⟩ (q' ++ E) := by
  intro rounds
  induction rounds with
  | zero =>
    intro nleft bytes u q hle hquiet
    obtain rfl : nleft = 0 := by omega
    exact ⟨0, u, q, hquiet, by omega, by simp, by simp⟩
  | succ rounds ih =>
    intro nleft bytes u q hle hquiet
    cases nleft with
    | zero => exact ⟨rounds + 1, u, q, hquiet, by omega, by simp, by simp [readnbLoop]⟩
    | succ nleft =>
      by_cases hne : u ++ received q = []
      · rw [hne]
        exact ⟨rounds + 1, u, q, hquiet, by simpa using hle, by simp [hne], by simp⟩
      · obtain ⟨x, u₁, q₁, hquiet₁, hx, hpos, hxle, hread⟩ :=
          rioRead_some hquiet (Nat.succ_pos nleft) hne E
        obtain ⟨rounds', u', q', hquiet', hrounds, hrest, hloop⟩ :=
          ih (nleft + 1 - x.length) (bytes ++ x) (u := u₁) (q := q₁) (by omega) hquiet₁
        have hlen : (u ++ received q).length = x.length + (u₁ ++ received q₁).length := by
          rw [← hx, List.length_append]
        have hleft : nleft + 1 - x.length - (u₁ ++ received q₁).length =
            nleft + 1 - (u ++ received q).length := by omega
        have htake : x ++ (u₁ ++ received q₁).take (nleft + 1 - x.length) =
            (u ++ received q).take (nleft + 1) := by
          rw [← hx]
          generalize u₁ ++ received q₁ = t
          rw [List.take_append, List.take_of_length_le hxle]
        rw [hleft] at hrounds hloop
        rw [List.append_assoc, htake] at hloop
        refine ⟨rounds', u', q', hquiet', hrounds, ?_, ?_⟩
        · rw [hrest, ← hx]
          generalize u₁ ++ received q₁ = t
          rw [List.drop_append, List.drop_eq_nil_of_le hxle, List.nil_append]
        · have hnneg : ¬ ((x.length : Int) < 0) := by omega
          have hnzero : ¬ ((x.length : Int) = 0) := by omega
          simp only [readnbLoop, hread, Option.bind_eq_bind, Option.bind_some, if_neg hnneg,
            if_neg hnzero, Int.toNat_natCast]
          exact hloop

end Loop

section Calls

variable {u : Text} {q : List Outcome} {n : ℕ}

/-- When `n` bytes have come, the call takes them and nothing else. -/
theorem rioReadnb_full (hquiet : Quiet q) (hn : n ≤ (u ++ received q).length) (E : List Outcome) :
    ∃ u' q', Quiet q' ∧ u' ++ received q' = (u ++ received q).drop n ∧
      rioReadnb ⟨u⟩ n (q ++ E) = some ⟨n, (u ++ received q).take n, ⟨u'⟩, q' ++ E⟩ := by
  obtain ⟨rounds, u', q', hquiet', -, hrest, hloop⟩ :=
    readnbLoop_bytes (n := n) E n n [] (u := u) le_rfl hquiet
  refine ⟨u', q', hquiet', hrest, hloop.trans ?_⟩
  rw [Nat.sub_eq_zero_of_le hn, readnbLoop]
  rfl

/-- What a call does that has taken all bytes and wants more. -/
theorem rioReadnb_short (hquiet : Quiet q) (hn : (u ++ received q).length < n)
    (E : List Outcome) :
    ∃ rounds left, left + 1 = n - (u ++ received q).length ∧
      rioReadnb ⟨u⟩ n (q ++ E) =
        readnbLoop n (rounds + 1) (left + 1) (u ++ received q) ⟨[]⟩ E := by
  obtain ⟨rounds, u', q', hquiet', hrounds, hrest, hloop⟩ :=
    readnbLoop_bytes (n := n) E n n [] (u := u) le_rfl hquiet
  rw [List.drop_eq_nil_of_le hn.le, List.append_eq_nil_iff] at hrest
  obtain ⟨rfl, hdry⟩ := hrest
  rw [List.nil_append, List.take_of_length_le hn.le] at hloop
  obtain ⟨left, hleft⟩ := Nat.exists_eq_succ_of_ne_zero
    (show n - (u ++ received q).length ≠ 0 by omega)
  obtain ⟨rounds, rfl⟩ := Nat.exists_eq_succ_of_ne_zero (show rounds ≠ 0 by omega)
  refine ⟨rounds, left, hleft.symm, hloop.trans ?_⟩
  rw [hleft, readnbLoop, readnbLoop, rioRead_dry hquiet' hdry]

/-- Before that the call waits. -/
theorem rioReadnb_waits (hquiet : Quiet q) (hn : (u ++ received q).length < n) :
    rioReadnb ⟨u⟩ n q = none := by
  obtain ⟨rounds, left, -, hcall⟩ := rioReadnb_short hquiet hn []
  rw [List.append_nil] at hcall
  rw [hcall]
  rfl

/-- The end of the file ends the call with what has come. -/
theorem rioReadnb_eof (hquiet : Quiet q) (hn : (u ++ received q).length < n) (E : List Outcome) :
    rioReadnb ⟨u⟩ n (q ++ .eof :: E) =
      some ⟨(u ++ received q).length, u ++ received q, ⟨[]⟩, E⟩ := by
  obtain ⟨rounds, left, hleft, hcall⟩ := rioReadnb_short hquiet hn (.eof :: E)
  rw [hcall]
  have hrc : (n : Int) - (left + 1 : ℕ) = (u ++ received q).length := by omega
  rw [readnbLoop, ← hrc]
  simp [rioRead, rioFill]

theorem rioReadnb_error (hquiet : Quiet q) (hn : (u ++ received q).length < n)
    (E : List Outcome) :
    rioReadnb ⟨u⟩ n (q ++ .error :: E) = some ⟨-1, u ++ received q, ⟨[]⟩, E⟩ := by
  obtain ⟨rounds, left, -, hcall⟩ := rioReadnb_short hquiet hn (.error :: E)
  rw [hcall]
  simp [readnbLoop, rioRead, rioFill]

/-- The line reader waits too, as long as no piece is complete. -/
theorem readlineLoop_pending : ∀ {left : ℕ} (n : ℕ) (bytes : Text) {u : Text} {q : List Outcome},
    Quiet q → cutLine left (u ++ received q) = none → readlineLoop left n bytes ⟨u⟩ q = none := by
  intro left
  induction left with
  | zero => exact fun _ _ _ _ _ hcut => by cases hcut
  | succ left ih =>
    intro n bytes u q hquiet hcut
    cases hall : u ++ received q with
    | nil =>
      obtain ⟨rfl, hnone⟩ := List.append_eq_nil_iff.mp hall
      have hdry := rioRead_dry hquiet hnone 1 []
      rw [List.append_nil] at hdry
      rw [readlineLoop, hdry]
      rfl
    | cons c t =>
      rw [hall, cutLine] at hcut
      obtain ⟨u', q', hquiet', rfl, hread⟩ := rioRead_next hquiet hall []
      rw [List.append_nil, List.append_nil] at hread
      split at hcut
      · cases hcut
      · next hc =>
        have hnext : cutLine left (u' ++ received q') = none := by simpa using hcut
        have hstored : [c] ≠ [newline] := fun h => hc (List.singleton_inj.mp h)
        simp only [readlineLoop, hread, Option.bind_eq_bind, Option.bind_some, if_true,
          if_neg hstored]
        exact ih _ _ hquiet' hnext

theorem rioReadlineb_pending {maxlen : ℕ} (hquiet : Quiet q)
    (hcut : cutLine (maxlen - 1) (u ++ received q) = none) : rioReadlineb ⟨u⟩ maxlen q = none :=
  readlineLoop_pending 1 [] hquiet hcut

end Calls

end SystemSoftware.RioBlocks
