import SystemSoftware.ConversationTurns

/-!
How a conversation ends. Every move but an interrupted read uses up some of the work that
the lines, the bytes under way and the replies still to come stand for, so a run has only so
many of them. As long as neither side is through, some move is possible, with one exception:
when the line that was asked last is not whole, the server waits for the rest of it and the
client for a reply.
-/
namespace SystemSoftware.ConversationProgress

open DecimalText RioBuffer RioLines LineStream RioBlocks Transitions Conversation
  ConversationTurns
open StockTree (maxline)

def spends : Move → Bool
  | .receiveIntr | .readIntr => false
  | _ => true

/-- The moves that neither a signal nor a user at the server is needed for. -/
def proceeds : Move → Bool
  | .receiveIntr | .readIntr | .exit => false
  | _ => true

/-- Nothing is possible but that a read is interrupted or that the server exits. -/
def Settled (s : State) : Prop := ∀ m, proceeds m = true → next s m = none

def lineWork (l : Text) : ℕ := 2 * l.length + 4

def clientWork : ClientPhase → ℕ
  | .prompt => 1
  | .writing rest => 2 * rest.length + 4
  | .reading => 3
  | .finished | .died => 0

def serverWork : ServerPhase → ℕ
  | .reading => 1
  | .writing rest => 2 * rest.length + 2
  | .ended => 0

deriving instance DecidableEq for Outcome

instance (q : List Outcome) : Decidable (Quiet q) := inferInstanceAs (Decidable (_ ∧ _))

def openWork (q : List Outcome) : ℕ := if Quiet q then 1 else 0

/-- A block to be written and read, for every line that has not been read. -/
def replyWork (s : State) : ℕ :=
  (2 * maxline + 3) * (s.todo.length + s.asked.length - s.served.length)

def work (s : State) : ℕ :=
  (s.todo.map lineWork).sum + replyWork s + clientWork s.client + s.up.length +
    openWork s.creads + serverWork s.server + s.down.length + openWork s.sreads

section Decrease

variable {lines : List Text} {s s' : State} {m : Move} {q : List Outcome} {k : ℕ}

theorem openWork_le (q : List Outcome) : openWork q ≤ 1 := by
  rw [openWork]
  split <;> omega

theorem openWork_same {p q : List Outcome} (h : Quiet p ↔ Quiet q) : openWork p = openWork q := by
  simp only [openWork, h]

theorem quiet_intr_iff : Quiet (q ++ [.eintr]) ↔ Quiet q := by
  simp [Quiet]

theorem quiet_data_iff {c : UInt8} {r : Text} : Quiet (q ++ [.data c r]) ↔ Quiet q := by
  simp [Quiet]

theorem openWork_stop {o : Outcome} (hquiet : Quiet q) (ho : o = .eof ∨ o = .error) :
    openWork (q ++ [o]) < openWork q := by
  have hstop : ¬ Quiet (q ++ [o]) := by
    rintro ⟨heof, herror⟩
    rcases ho with rfl | rfl <;> simp at heof herror
  rw [openWork, openWork, if_pos hquiet, if_neg hstop]
  exact Nat.one_pos

theorem chunk_length {t t' : Text} {o : Outcome} (h : chunk k t = some (o, t')) :
    ∃ c r, o = .data c r ∧ t'.length < t.length := by
  obtain ⟨c, r, ho, rfl⟩ := chunk_spec h
  exact ⟨c, r, ho, by simp only [List.length_append, List.length_cons]; omega⟩

theorem sound_waits (hs : Sound lines s) (hwaits : s.clientWaits) : Quiet s.creads := by
  rcases hs with hs | hs
  · exact hs.creads
  · exact (left_waits hs hwaits).1

theorem sound_running (hs : Sound lines s) (hserver : s.server ≠ .ended) : Running lines s :=
  hs.resolve_right fun h => hserver h.ended

/-- What a move of the client does to the work that is left. -/
theorem work_client (hs : Sound lines s) (h : clientNext s m = some s') :
    work s' ≤ work s ∧ (spends m = true → work s' < work s) := by
  cases m with
  | fgets rest =>
    simp only [clientNext] at h
    split at h
    · next line todo hclient htodo =>
      rw [Option.ite_none_right_eq_some] at h
      obtain rfl := Option.some.inj h.2
      have hreply : replyWork { s with
          todo := todo, asked := s.asked ++ [line], client := .writing line
          buf := line ++ 0 :: rest } = replyWork s := by
        simp only [replyWork, htodo, List.length_append, List.length_cons, List.length_nil]
        congr 2
        omega
      simp only [work, hreply, hclient, htodo, List.map_cons, List.sum_cons, lineWork,
        clientWork]
      omega
    · cases h
  | close =>
    simp only [clientNext] at h
    split at h
    · next hprompt =>
      obtain rfl := Option.some.inj h
      simp only [work, replyWork, hprompt.1, clientWork]
      omega
    · cases h
  | send k =>
    simp only [clientNext] at h
    split at h
    · next rest hclient =>
      split at h
      · next hk =>
        obtain rfl := Option.some.inj h
        have hup : (if s.server = .ended then s.up else s.up ++ rest.take (k + 1)).length ≤
            s.up.length + (k + 1) := by
          split
          · omega
          · rw [List.length_append, List.length_take]
            omega
        simp only [work, replyWork, hclient, clientWork, List.length_drop]
        omega
      · cases h
    · cases h
  | sendFails =>
    simp only [clientNext] at h
    split at h
    · next hclient =>
      split at h
      · obtain rfl := Option.some.inj h
        simp only [work, replyWork, hclient, clientWork]
        omega
      · cases h
    · cases h
  | sent =>
    simp only [clientNext] at h
    split at h
    · next hclient =>
      obtain rfl := Option.some.inj h
      simp only [work, replyWork, hclient, clientWork, List.length_nil]
      omega
    · cases h
  | receive k =>
    simp only [clientNext] at h
    split at h
    · obtain ⟨⟨o, down⟩, hchunk, rfl⟩ := Option.map_eq_some_iff.mp h
      obtain ⟨c, r, rfl, hlt⟩ := chunk_length hchunk
      have hopen := openWork_same (quiet_data_iff (q := s.creads) (c := c) (r := r))
      simp only [work, replyWork, hopen]
      omega
    · cases h
  | receiveIntr =>
    simp only [clientNext] at h
    split at h
    · obtain rfl := Option.some.inj h
      have hopen := openWork_same (quiet_intr_iff (q := s.creads))
      simp only [work, replyWork, hopen, spends]
      exact ⟨le_rfl, fun hno => by cases hno⟩
    · cases h
  | receiveEof =>
    simp only [clientNext] at h
    split at h
    · next hcond =>
      obtain rfl := Option.some.inj h
      have hopen := openWork_stop (sound_waits hs hcond.1) (Or.inl (Eq.refl Outcome.eof))
      simp only [work, replyWork]
      omega
    · cases h
  | receiveError =>
    simp only [clientNext] at h
    split at h
    · next hcond =>
      obtain rfl := Option.some.inj h
      have hopen := openWork_stop (sound_waits hs hcond.1) (Or.inr (Eq.refl Outcome.error))
      simp only [work, replyWork]
      omega
    · cases h
  | fputs =>
    simp only [clientNext] at h
    split at h
    · next hclient =>
      obtain ⟨b, -, rfl⟩ := Option.map_eq_some_iff.mp h
      have hopen := openWork_le b.outcomes
      simp only [work, replyWork, hclient, clientWork]
      omega
    · cases h
  | read | readIntr | readEof | request | hangup | write | written | exit => cases h

/-- A line that is read is one reply less to come. -/
theorem replyWork_request {cur : Text} (hasked : s.asked = s.served ++ [cur]) {t : State}
    (htodo : t.todo = s.todo) (hask : t.asked = s.asked)
    (hserved : t.served.length = s.served.length + 1) :
    replyWork t + (2 * maxline + 3) = replyWork s := by
  have hlen : s.asked.length = s.served.length + 1 := by
    rw [hasked, List.length_append]
    rfl
  have hmore : s.todo.length + s.asked.length - s.served.length =
      t.todo.length + t.asked.length - t.served.length + 1 := by
    rw [htodo, hask, hserved]
    omega
  rw [replyWork, replyWork, hmore]
  rfl

theorem work_server (hs : Running lines s) (h : serverNext s m = some s') :
    work s' ≤ work s ∧ (spends m = true → work s' < work s) := by
  cases m with
  | read k =>
    simp only [serverNext] at h
    split at h
    · obtain ⟨⟨o, up⟩, hchunk, rfl⟩ := Option.map_eq_some_iff.mp h
      obtain ⟨c, r, rfl, hlt⟩ := chunk_length hchunk
      have hopen := openWork_same (quiet_data_iff (q := s.sreads) (c := c) (r := r))
      simp only [work, replyWork, hopen]
      omega
    · cases h
  | readIntr =>
    simp only [serverNext] at h
    split at h
    · obtain rfl := Option.some.inj h
      have hopen := openWork_same (quiet_intr_iff (q := s.sreads))
      simp only [work, replyWork, hopen, spends]
      exact ⟨le_rfl, fun hno => by cases hno⟩
    · cases h
  | readEof =>
    simp only [serverNext] at h
    split at h
    · next hcond =>
      obtain rfl := Option.some.inj h
      have hopen := openWork_stop (running_waits hs hcond.1) (Or.inl (Eq.refl Outcome.eof))
      simp only [work, replyWork]
      omega
    · cases h
  | request res =>
    simp only [serverNext] at h
    split at h
    swap
    · cases h
    next line hserver hline =>
    split at h
    swap
    · cases h
    next hcond =>
    obtain ⟨hrc, hres⟩ := hcond
    obtain rfl := Option.some.inj h
    rcases running_line hs hline with ⟨hzero, -⟩ | ⟨cur, q', -, -, -, -, -, rfl, -, hasked, -⟩
    · exact absurd hzero hrc
    · have hreply := replyWork_request (s := s) (t := { s with
        served := s.served ++ [cur], replies := s.replies ++ [res], server := .writing res
        srio := ⟨[]⟩, sreads := q' }) hasked rfl rfl List.length_append
      have hopen := openWork_le q'
      simp only [work, hserver, serverWork, hres]
      omega
  | hangup =>
    simp only [serverNext] at h
    split at h
    · next hserver _ =>
      split at h
      · obtain rfl := Option.some.inj h
        simp only [work, replyWork, hserver, serverWork]
        omega
      · cases h
    · cases h
  | write k =>
    simp only [serverNext] at h
    split at h
    · next rest hserver =>
      split at h
      · next hk =>
        obtain rfl := Option.some.inj h
        simp only [work, replyWork, hserver, serverWork, List.length_append,
          List.length_take, List.length_drop]
        omega
      · cases h
    · cases h
  | written =>
    simp only [serverNext] at h
    split at h
    · next hserver =>
      obtain rfl := Option.some.inj h
      simp only [work, replyWork, hserver, serverWork, List.length_nil]
      omega
    · cases h
  | exit =>
    simp only [serverNext] at h
    split at h
    · next hserver =>
      obtain rfl := Option.some.inj h
      have hpos : 0 < serverWork s.server := by
        cases hphase : s.server with
        | reading => exact Nat.one_pos
        | writing rest => simp [serverWork]
        | ended => exact absurd hphase hserver
      have hzero : serverWork .ended = 0 := rfl
      simp only [work, replyWork]
      omega
    · cases h
  | fgets | close | send | sendFails | sent | receive | receiveIntr | receiveEof | receiveError
  | fputs => cases h

/-- No move makes work, and only an interrupted read does none. -/
theorem work_step (hs : Sound lines s) (h : next s m = some s') :
    work s' ≤ work s ∧ (spends m = true → work s' < work s) := by
  rw [next, Option.or_eq_some_iff] at h
  rcases h with h | ⟨-, h⟩
  · exact work_client hs h
  · rcases hs with hs | hs
    · exact work_server hs h
    · rw [left_server hs] at h
      cases h

end Decrease

section Bound

variable {lines : List Text} {s : State} {ms : List Move}

theorem sum_lineWork (lines : List Text) :
    (lines.map lineWork).sum = 2 * lines.flatten.length + 4 * lines.length := by
  induction lines with
  | nil => rfl
  | cons l lines ih =>
    simp only [List.map_cons, List.sum_cons, ih, lineWork, List.flatten_cons, List.length_append,
      List.length_cons]
    omega

theorem work_start (lines : List Text) :
    work (start lines) = 2 * lines.flatten.length + (2 * maxline + 7) * lines.length + 4 := by
  have hopen : openWork [] = 1 := by decide
  have hreply : replyWork (start lines) = (2 * maxline + 3) * lines.length := rfl
  have hsum : (2 * maxline + 7) * lines.length =
      (2 * maxline + 3) * lines.length + 4 * lines.length := by
    have hseven : 2 * maxline + 7 = 2 * maxline + 3 + 4 := rfl
    rw [hseven, Nat.add_mul]
  have hwork : work (start lines) =
      (lines.map lineWork).sum + (2 * maxline + 3) * lines.length + 1 + 0 + openWork [] + 1 + 0 +
        openWork [] := rfl
  rw [hwork, hsum, hopen, sum_lineWork]
  omega

/-- Every run has only so many moves that are not interrupted reads: each byte that is sent
is written and read once, and so are the blocks of as many replies as there are lines. -/
theorem moves_bounded (hlines : ∀ l ∈ lines, Single l) (h : (runs lines).Run (start lines) ms s) :
    ms.countP spends ≤ 2 * lines.flatten.length + (2 * maxline + 7) * lines.length + 4 := by
  have hbound := h.bounded (I := Sound lines) (μ := work) (p := spends)
    (fun s m s' hs hstep => ⟨sound_step hs hstep, work_step hs hstep⟩) (sound_start hlines)
  rw [work_start] at hbound
  omega

/-- A request that is interrupted on its way and that the server does not live to answer. -/
def unanswered : List Move :=
  [.fgets (zeroRest [120, newline]), .send 0, .readIntr, .read 0, .send 0, .sent, .read 0,
    .receiveIntr, .exit, .receiveEof, .fputs, .close]

theorem moves_bounded_line : ∃ s,
    (runs [[120, newline]]).Run (start [[120, newline]]) unanswered s ∧ s.client = .finished ∧
    unanswered.countP spends ≤ 2 * 2 + (2 * maxline + 7) * 1 + 4 := by
  have hlines : ∀ l ∈ [[120, newline]], Single l := by
    intro l hl
    rw [List.mem_singleton.mp hl]
    exact ⟨by decide, by decide⟩
  have hperform : (System.perform next (fun _ _ => True) (start [[120, newline]]) unanswered).map
      State.client = some .finished := by decide +kernel
  obtain ⟨s, hs, hclient⟩ := Option.map_eq_some_iff.mp hperform
  have hrun : (runs [[120, newline]]).Run (start [[120, newline]]) unanswered s := .of_perform hs
  exact ⟨s, hrun, hclient, moves_bounded hlines hrun⟩

end Bound

section Settled

variable {lines : List Text} {s s' : State} {m : Move}

theorem settled_client (h : Settled s) (hm : proceeds m = true) :
    clientNext s m = none := (Option.or_eq_none_iff.mp (h m hm)).1

theorem settled_server (h : Settled s) (hm : proceeds m = true) :
    serverNext s m = none := (Option.or_eq_none_iff.mp (h m hm)).2

theorem chunk_cons (c : UInt8) (r : Text) : chunk 0 (c :: r) = some (.data c [], r) := by
  simp [chunk, rioBufsize]

/-- A client that cannot go on is in a read or through. -/
theorem settled_client_reads (hs : Common lines s) (h : Settled s) :
    s.client = .reading ∨ s.client = .finished ∨ s.client = .died := by
  cases hclient : s.client with
  | prompt =>
    cases htodo : s.todo with
    | nil =>
      have hclose := settled_client h (m := .close) rfl
      simp [clientNext, hclient, htodo] at hclose
    | cons line todo =>
      have hline : line.length < maxline := (hs.single line (by
        rw [← hs.lines, htodo]
        exact List.mem_append_right _ List.mem_cons_self)).2
      have hfgets := h (.fgets (zeroRest line)) rfl
      rw [fgets_zeroRest hclient htodo hline] at hfgets
      cases hfgets
  | writing rest =>
    cases rest with
    | nil =>
      have hsent := settled_client h (m := .sent) rfl
      simp [clientNext, hclient] at hsent
    | cons c rest =>
      have hsend := settled_client h (m := .send 0) rfl
      simp [clientNext, hclient] at hsend
  | reading => exact Or.inl rfl
  | finished => exact Or.inr (Or.inl rfl)
  | died => exact Or.inr (Or.inr rfl)

theorem settled_server_reads (h : Settled s) : s.server = .reading ∨ s.server = .ended := by
  cases hserver : s.server with
  | reading => exact Or.inl rfl
  | writing rest =>
    cases rest with
    | nil =>
      have hwritten := settled_server h (m := .written) rfl
      simp [serverNext, hserver] at hwritten
    | cons c rest =>
      have hwrite := settled_server h (m := .write 0) rfl
      simp [serverNext, hserver] at hwrite
  | ended => exact Or.inr rfl

/-- The read it is in has no bytes to take. -/
theorem settled_client_waits (h : Settled s) (hclient : s.client = .reading) :
    s.clientWaits ∧ s.down = [] := by
  have hwaits : s.clientWaits := by
    refine ⟨hclient, ?_⟩
    have hfputs := settled_client h (m := .fputs) rfl
    rw [clientNext, if_pos hclient, Option.map_eq_none_iff] at hfputs
    rw [hfputs]
    rfl
  refine ⟨hwaits, ?_⟩
  cases hdown : s.down with
  | nil => rfl
  | cons c r =>
    have hreceive := settled_client h (m := .receive 0) rfl
    rw [clientNext, if_pos hwaits, hdown, chunk_cons] at hreceive
    cases hreceive

theorem settled_server_waits (h : Settled s) (hserver : s.server = .reading) :
    s.serverWaits ∧ s.up = [] := by
  have hwaits : s.serverWaits := by
    refine ⟨hserver, ?_⟩
    cases hline : rioReadlineb s.srio maxline s.sreads with
    | none => rfl
    | some line =>
      by_cases hrc : line.rc = 0
      · have hhangup := settled_server h (m := .hangup) rfl
        simp [serverNext, hserver, hline, hrc] at hhangup
      · have hrequest := settled_server h (m := .request (.replicate maxline 0)) rfl
        simp [serverNext, hserver, hline, hrc] at hrequest
  refine ⟨hwaits, ?_⟩
  cases hup : s.up with
  | nil => rfl
  | cons c r =>
    have hread := settled_server h (m := .read 0) rfl
    rw [serverNext, if_pos hwaits, hup, chunk_cons] at hread
    cases hread

/-- Both wait, the server for the rest of a line that is not whole. -/
structure Stalled (s : State) : Prop where
  client : s.client = .reading
  server : s.server = .reading
  asked : ∃ cur, s.asked = s.served ++ [cur] ∧ ¬ Whole cur
  shown : s.replies = s.shown

/-- While the server runs nothing but a line that is not whole ends the moves. -/
theorem running_settled (hs : Running lines s) (h : Settled s) : Stalled s := by
  have hserver := (settled_server_reads h).resolve_right hs.server
  obtain ⟨hwaits, hupnil⟩ := settled_server_waits h hserver
  cases hs.turn with
  | idle hclient _ hup _ _ _ _ =>
    have hfin : s.client = .finished := by
      rcases settled_client_reads hs.toCommon h with hcl | hcl | hcl
      · simp [hcl] at hclient
      · exact hcl
      · simp [hcl] at hclient
    have heof := settled_server h (m := .readEof) rfl
    rw [serverNext, if_pos ⟨hwaits, hupnil, hfin⟩] at heof
    cases heof
  | asking cur hclient _ hup hdown hasked hshown hreads =>
    have hreading : s.client = .reading := by
      refine (settled_client_reads hs.toCommon h).resolve_right ?_
      rintro (hcl | hcl) <;> simp [hcl] at hclient
    have hall : received s.sreads = cur := by
      simpa [requestBytes, hupnil, toSend, hreading] using hup
    refine ⟨hreading, hserver, ⟨cur, hasked, fun hwhole => ?_⟩, hshown⟩
    obtain ⟨q', -, -, hcall⟩ := line_whole hreads (hall ▸ hwhole)
    have hnone := hwaits.2
    rw [hs.srio, hcall] at hnone
    cases hnone
  | answering res hclient _ hup hdown hasked hshown hreads =>
    have hreading : s.client = .reading := by
      refine (settled_client_reads hs.toCommon h).resolve_right ?_
      rintro (hcl | hcl) <;> simp [hcl] at hclient
    obtain ⟨hcwaits, hdownnil⟩ := settled_client_waits h hreading
    have hall : received s.creads = res := by
      simpa [replyBytes, hdownnil, toWrite, hserver] using hdown
    have hres : res.length = maxline := hs.blocks res (by rw [hshown]; simp)
    obtain ⟨u', q', -, -, hcall⟩ := rioReadnb_full (u := []) (n := maxline) hs.creads
      (by rw [List.nil_append, hall, hres]) []
    have hnone := hcwaits.2
    rw [List.append_nil, ← hs.crio] at hcall
    rw [hcall] at hnone
    cases hnone

/-- Behind the exit of the server the client is through, or died writing. -/
theorem left_settled (hs : Left lines s) (h : Settled s) :
    s.client = .finished ∨ s.client = .died := by
  refine (settled_client_reads hs.toCommon h).resolve_left fun hreading => ?_
  obtain ⟨hwaits, hdown⟩ := settled_client_waits h hreading
  have heof := settled_client h (m := .receiveEof) rfl
  rw [clientNext, if_pos ⟨hwaits, hdown, hs.ended⟩] at heof
  cases heof

end Settled

section Served

variable {lines : List Text} {s s' : State} {m : Move}

structure Over (lines : List Text) (s : State) : Prop where
  client : s.client = .finished
  server : s.server = .ended
  served : s.served = lines
  shown : s.replies = s.shown
  count : s.replies.length = s.served.length

structure Steady (lines : List Text) (s : State) : Prop where
  whole : ∀ l ∈ s.served, Whole l
  closed : s.client = .finished → s.todo = []
  state : Running lines s ∨ Over lines s

theorem over_next (hs : Over lines s) (m : Move) : next s m = none := by
  rw [next, Option.or_eq_none_iff]
  cases m <;>
    simp [clientNext, serverNext, State.clientWaits, State.serverWaits, hs.client, hs.server]

/-- What the client does to the lines that have been read and to those it will send. -/
theorem client_keeps (h : clientNext s m = some s') :
    s'.served = s.served ∧ s.client ≠ .finished ∧ (s'.client = .finished → s'.todo = []) := by
  cases m with
  | fgets | close | send | sendFails | sent | receiveIntr | receiveEof | receiveError =>
    simp only [clientNext] at h
    repeat' split at h
    all_goals first
      | cases h; done
      | (obtain rfl := Option.some.inj h; simp_all [State.clientWaits])
  | receive | fputs =>
    simp only [clientNext] at h
    split at h
    · obtain ⟨x, -, rfl⟩ := Option.map_eq_some_iff.mp h
      simp_all [State.clientWaits]
    · cases h
  | read | readIntr | readEof | request | hangup | write | written | exit => cases h

/-- What the server does to the client, and to itself when it goes on. -/
theorem server_keeps (h : serverNext s m = some s') :
    s'.client = s.client ∧ s'.todo = s.todo ∧
      (m = .hangup ∨ m = .exit ∨ s'.server ≠ .ended ∧
        (s'.served = s.served ∨ ∃ res, m = .request res)) := by
  cases m with
  | readIntr | readEof | request | hangup | write | written | exit =>
    simp only [serverNext] at h
    repeat' split at h
    all_goals first
      | cases h; done
      | (obtain rfl := Option.some.inj h; simp_all [State.serverWaits])
  | read =>
    simp only [serverNext] at h
    split at h
    · next hwaits =>
      obtain ⟨x, -, rfl⟩ := Option.map_eq_some_iff.mp h
      simp [hwaits.1]
    · cases h
  | fgets | close | send | sendFails | sent | receive | receiveIntr | receiveEof | receiveError
  | fputs => cases h

/-- A line that is read is whole. -/
theorem request_whole {res : Text} (hs : Running lines s) (hwhole : ∀ l ∈ s.served, Whole l)
    (h : serverNext s (.request res) = some s') : ∀ l ∈ s'.served, Whole l := by
  simp only [serverNext] at h
  split at h
  swap
  · cases h
  next line _ hline =>
  split at h
  swap
  · cases h
  next hcond =>
  obtain rfl := Option.some.inj h
  rcases running_line hs hline with ⟨hzero, -⟩ | ⟨cur, q', -, hcur, -, -, -, rfl, -⟩
  · exact absurd hzero hcond.1
  · intro l hl
    rcases List.mem_append.mp hl with hl | hl
    · exact hwhole l hl
    · rw [List.mem_singleton.mp hl]
      exact hcur

/-- The server closes behind a client that has closed. -/
theorem hangup_over (hs : Running lines s) (hclosed : s.client = .finished → s.todo = [])
    (h : serverNext s .hangup = some s') : Over lines s' := by
  simp only [serverNext] at h
  split at h
  swap
  · cases h
  next line _ hline =>
  split at h
  swap
  · cases h
  next hrc =>
  obtain rfl := Option.some.inj h
  have hfin : s.client = .finished := by
    rcases running_line hs hline with ⟨-, hfin⟩ | ⟨cur, q', -, hcur, -, -, -, rfl, -⟩
    · exact hfin
    · exact absurd hrc (whole_pos hcur)
  cases hs.turn with
  | idle _ _ _ _ hasked hshown =>
    refine ⟨hfin, rfl, ?_, hshown, hs.count⟩
    rw [← hs.lines, hclosed hfin, List.append_nil, hasked]
  | asking _ hclient => simp [hfin] at hclient
  | answering _ hclient => simp [hfin] at hclient

theorem steady_step (hs : Steady lines s) (hexit : m ≠ .exit) (h : next s m = some s') :
    Steady lines s' := by
  obtain ⟨hwhole, hclosed, hrun | hover⟩ := hs
  · rw [next, Option.or_eq_some_iff] at h
    rcases h with h | ⟨-, h⟩
    · obtain ⟨hserved, -, hfin⟩ := client_keeps h
      exact ⟨by rwa [hserved], hfin, Or.inl (running_client hrun h)⟩
    · obtain ⟨hclient, htodo, hcase⟩ := server_keeps h
      have hclosed' : s'.client = .finished → s'.todo = [] := by rwa [hclient, htodo]
      rcases hcase with rfl | hm | ⟨hserver, hcase⟩
      · have hover := hangup_over hrun hclosed h
        refine ⟨?_, hclosed', Or.inr hover⟩
        have hserved : s'.served = s.served := by
          simp only [serverNext] at h
          split at h
          · split at h
            · obtain rfl := Option.some.inj h
              rfl
            · cases h
          · cases h
        rwa [hserved]
      · exact absurd hm hexit
      · refine ⟨?_, hclosed', Or.inl (sound_running (running_server hrun h) hserver)⟩
        rcases hcase with hserved | ⟨res, rfl⟩
        · rwa [hserved]
        · exact request_whole hrun hwhole h
  · rw [over_next hover] at h
    cases h

theorem reachable_steady (hlines : ∀ l ∈ lines, Single l)
    (hs : ((runs lines).guarded fun _ m => m ≠ .exit).Reachable s) : Steady lines s := by
  refine hs.invariant (I := Steady lines) ?_ ?_
  · intro s hstart
    obtain rfl : s = start lines := hstart
    exact ⟨fun l hl => (List.not_mem_nil hl).elim, fun h => ClientPhase.noConfusion h,
      (sound_start hlines).imp_right fun h => ServerPhase.noConfusion h.ended⟩
  · intro s m s' hsteady hstep
    exact steady_step hsteady hstep.2 hstep.1

theorem spends_of_proceeds (h : proceeds m = true) : spends m = true ∧ m ≠ .exit := by
  cases m with
  | receiveIntr | readIntr | exit => cases h
  | _ => exact ⟨rfl, Move.noConfusion⟩

/-- Every run can go on until nothing more is possible. -/
theorem exists_settled (hlines : ∀ l ∈ lines, Single l)
    (hs : ((runs lines).guarded fun _ m => m ≠ .exit).Reachable s) :
    ∃ t, ((runs lines).guarded fun _ m => m ≠ .exit).Reachable t ∧ Settled t := by
  have hspend : ∀ s m s', Sound lines s →
      ((runs lines).guarded fun _ m => m ≠ .exit).step s m s' →
      Sound lines s' ∧ (proceeds m = true → work s' < work s) := by
    rintro s m s' hs ⟨hstep, -⟩
    exact ⟨sound_step hs hstep, fun hm => (work_step hs hstep).2 (spends_of_proceeds hm).1⟩
  obtain ⟨t, ht, hstuck⟩ := hs.exists_stuck hspend (reachable_sound hlines hs.of_guarded)
  refine ⟨t, ht, fun m hm => ?_⟩
  by_contra hsome
  obtain ⟨t', ht'⟩ := Option.ne_none_iff_exists'.mp hsome
  exact hstuck m t' hm ⟨ht', (spends_of_proceeds hm).2⟩

/-- When nothing more is possible, the lines up to the first that is not whole have been
read, answered and printed. If there is such a line both sides wait, and else both have
closed. -/
theorem steady_settled (hs : Steady lines s) (hsettled : Settled s) :
    s.served = lines.takeWhile (Whole ·) ∧ s.replies = s.shown ∧
      s.replies.length = s.served.length ∧
      ((∀ l ∈ lines, Whole l) → s.client = .finished ∧ s.server = .ended) ∧
      (¬ (∀ l ∈ lines, Whole l) → s.client = .reading ∧ s.server = .reading) := by
  obtain ⟨hwhole, -, hrun | hover⟩ := hs
  · obtain ⟨hclient, hserver, ⟨cur, hasked, hcur⟩, hshown⟩ := running_settled hrun hsettled
    have hlines : lines = s.served ++ (cur :: s.todo) := by
      rw [← hrun.lines, hasked, List.append_assoc, List.singleton_append]
    have hnot : ¬ ∀ l ∈ lines, Whole l := fun hall => hcur (hall cur (by rw [hlines]; simp))
    refine ⟨?_, hshown, hrun.count, fun hall => absurd hall hnot, fun _ => ⟨hclient, hserver⟩⟩
    rw [hlines, List.takeWhile_append_of_pos (by simpa using hwhole),
      List.takeWhile_cons_of_neg (by simpa using hcur), List.append_nil]
  · have hall : ∀ l ∈ lines, Whole l := by rwa [← hover.served]
    refine ⟨?_, hover.shown, hover.count, fun _ => ⟨hover.client, hover.server⟩,
      fun hnot => absurd hall hnot⟩
    rw [hover.served]
    exact (List.takeWhile_eq_self_iff.mpr (by simpa using hall)).symm

end Served

end SystemSoftware.ConversationProgress
