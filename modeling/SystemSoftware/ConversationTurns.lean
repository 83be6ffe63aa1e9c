import SystemSoftware.Conversation

/-!
Whose turn it is. While the server runs, at most one line and at most one block are under
way, never both: nobody is asked, or the last line is on its way, or its reply is. Behind
the exit of the server the client reads what is left of the last reply and then nothing.
So the server reads the lines that were sent, and the client copies the k-th reply, or a
beginning of it, over the k-th line, and prints its buffer.
-/
namespace SystemSoftware.ConversationTurns

open DecimalText RioBuffer RioLines LineStream RioBlocks Transitions Conversation
open StockTree (maxline)

def toSend (s : State) : Text :=
  match s.client with
  | .writing rest => rest
  | _ => []

def toWrite (s : State) : Text :=
  match s.server with
  | .writing rest => rest
  | _ => []

def requestBytes (s : State) : Text := received s.sreads ++ s.up ++ toSend s

def replyBytes (s : State) : Text := received s.creads ++ s.down ++ toWrite s

/-- While the server runs: the client has not asked, or `cur` has been asked, or `res` is
the reply that the client has not printed. -/
inductive Turn (s : State) : Prop
  | idle (hclient : s.client = .prompt ∨ s.client = .finished)
      (hserver : s.server = .reading ∨ s.server = .writing [])
      (hup : requestBytes s = []) (hdown : replyBytes s = [])
      (hasked : s.asked = s.served) (hshown : s.replies = s.shown)
      (hreads : Quiet s.sreads ∨
        s.client = .finished ∧ ∃ q, Quiet q ∧ received q = [] ∧ s.sreads = q ++ [.eof])
  | asking (cur : Text) (hclient : s.client = .reading ∨ ∃ rest, s.client = .writing rest)
      (hserver : s.server = .reading ∨ s.server = .writing [])
      (hup : requestBytes s = cur) (hdown : replyBytes s = [])
      (hasked : s.asked = s.served ++ [cur]) (hshown : s.replies = s.shown)
      (hreads : Quiet s.sreads)
  | answering (res : Text) (hclient : s.client = .reading ∨ s.client = .writing [])
      (hserver : s.server = .reading ∨ ∃ rest, s.server = .writing rest)
      (hup : requestBytes s = []) (hdown : replyBytes s = res)
      (hasked : s.asked = s.served) (hshown : s.replies = s.shown ++ [res])
      (hreads : Quiet s.sreads)

structure Common (lines : List Text) (s : State) : Prop where
  single : ∀ l ∈ lines, Single l
  lines : s.asked ++ s.todo = lines
  crio : s.crio = ⟨[]⟩
  count : s.replies.length = s.served.length
  blocks : ∀ r ∈ s.replies, r.length = maxline

structure Running (lines : List Text) (s : State) : Prop extends Common lines s where
  srio : s.srio = ⟨[]⟩
  creads : Quiet s.creads
  turn : Turn s

structure Left (lines : List Text) (s : State) : Prop extends Common lines s where
  ended : s.server = .ended
  served : s.served <+: s.asked
  shown : ∀ k, s.shown.getD k [] <+: s.replies.getD k []
  pending : received s.creads ++ s.down <+: s.replies.getD s.shown.length []
  creads : Quiet s.creads ∨ s.down = [] ∧ ∃ q, Quiet q ∧ (received q).length < maxline ∧
    (s.creads = q ++ [.eof] ∨ s.creads = q ++ [.error])

def Sound (lines : List Text) (s : State) : Prop := Running lines s ∨ Left lines s

section Pieces

variable {k : ℕ} {t t' cur : Text} {o : Outcome} {q : List Outcome} {s : State} {lines : List Text}

theorem chunk_spec (h : chunk k t = some (o, t')) : ∃ c r, o = .data c r ∧ t = c :: r ++ t' := by
  rw [chunk] at h
  split at h
  · next c r htake =>
    split at h
    · obtain ⟨rfl, rfl⟩ := Prod.mk.inj (Option.some.inj h)
      exact ⟨c, r, rfl, by rw [← htake, List.take_append_drop]⟩
    · cases h
  · cases h

theorem cutLine_nil : cutLine (maxline - 1) [] = none := rfl

/-- The line reader returns when all that has come is a whole line. -/
theorem line_whole (hquiet : Quiet q) (hwhole : Whole (received q)) :
    ∃ q', Quiet q' ∧ received q' = [] ∧ rioReadlineb ⟨[]⟩ maxline q =
      some ⟨(received q).length, received q, ⟨[]⟩, q'⟩ := by
  have hcut : cutLine (maxline - 1) ([] ++ received q) = some (received q, []) := hwhole
  obtain ⟨u', q', hquiet', hrest, hcall⟩ := rioReadlineb_cut hquiet hcut []
  rw [List.append_nil, List.append_nil] at hcall
  obtain ⟨rfl, hdry⟩ := List.append_eq_nil_iff.mp hrest
  exact ⟨q', hquiet', hdry, hcall⟩

/-- It waits as long as there is no whole line. -/
theorem line_pending (hquiet : Quiet q) (hcut : cutLine (maxline - 1) (received q) = none) :
    rioReadlineb ⟨[]⟩ maxline q = none :=
  rioReadlineb_pending hquiet (show cutLine (maxline - 1) ([] ++ received q) = none from hcut)

/-- Behind the last byte it returns 0. -/
theorem line_end (hquiet : Quiet q) (hdry : received q = []) :
    rioReadlineb ⟨[]⟩ maxline (q ++ [.eof]) = some ⟨0, [], ⟨[]⟩, []⟩ := by
  have hnone : [] ++ received q = [] := hdry
  have hroom : 2 ≤ maxline := by decide
  exact rioReadlineb_end hroom hquiet hnone []

/-- The line reader returns on bytes of a single line only when it has all of them. -/
theorem rioReadlineb_single {line : Line} (hcur : Single cur) (hquiet : Quiet q)
    (hq : received q <+: cur) (h : rioReadlineb ⟨[]⟩ maxline q = some line) :
    received q = cur ∧ Whole cur ∧ ∃ q', Quiet q' ∧ received q' = [] ∧
      line = ⟨cur.length, cur, ⟨[]⟩, q'⟩ := by
  cases hcut : cutLine (maxline - 1) (received q) with
  | none =>
    rw [line_pending hquiet hcut] at h
    cases h
  | some x =>
    obtain ⟨a, r⟩ := x
    obtain ⟨hall, rfl, rfl⟩ := cutLine_prefix hcur hq hcut
    rw [← hall] at hcut
    obtain ⟨q', hquiet', hdry, hcall⟩ := line_whole hquiet hcut
    rw [h] at hcall
    rw [hall] at hcall hcut
    exact ⟨hall, hcut, q', hquiet', hdry, Option.some.inj hcall⟩

/-- Without bytes the line reader waits. -/
theorem rioReadlineb_dry (hquiet : Quiet q) (hdry : received q = []) :
    rioReadlineb ⟨[]⟩ maxline q = none :=
  line_pending hquiet (by rw [hdry, cutLine_nil])

/-- The block reader returns when it has the bytes of a block. -/
theorem rioReadnb_block {b : Block} (hquiet : Quiet q) (hle : (received q).length ≤ maxline)
    (h : rioReadnb ⟨[]⟩ maxline q = some b) :
    (received q).length = maxline ∧ ∃ q', Quiet q' ∧ received q' = [] ∧
      b = ⟨maxline, received q, ⟨[]⟩, q'⟩ := by
  have hlen : (received q).length = maxline := by
    by_contra hne
    have hwaits := rioReadnb_waits (u := []) (n := maxline) hquiet
      (by rw [List.nil_append]; omega)
    rw [hwaits] at h
    cases h
  obtain ⟨u', q', hquiet', hrest, hcall⟩ :=
    rioReadnb_full (u := []) (n := maxline) hquiet (by rw [List.nil_append, hlen]) []
  rw [List.append_nil, List.append_nil, List.nil_append, List.take_of_length_le hlen.le] at hcall
  rw [List.nil_append, List.drop_eq_nil_of_le hlen.le] at hrest
  obtain ⟨rfl, hdry⟩ := List.append_eq_nil_iff.mp hrest
  rw [h] at hcall
  exact ⟨hlen, q', hquiet', hdry, Option.some.inj hcall⟩

theorem getD_length (hblocks : ∀ r ∈ s.replies, r.length = maxline) (k : ℕ) :
    (s.replies.getD k []).length ≤ maxline := by
  rw [List.getD_eq_getElem?_getD]
  cases hget : s.replies[k]? with
  | none => exact Nat.zero_le _
  | some r => exact (hblocks r (List.mem_of_getElem? hget)).le

end Pieces

section ServerRuns

variable {lines : List Text} {s s' : State} {m : Move} {q : List Outcome} {k : ℕ}

theorem quiet_nil : Quiet [] := ⟨List.not_mem_nil, List.not_mem_nil⟩

theorem quiet_intr (h : Quiet q) : Quiet (q ++ [.eintr]) :=
  quiet_append.mpr ⟨h, by simp [Quiet]⟩

theorem received_intr (q : List Outcome) : received (q ++ [.eintr]) = received q := by
  rw [received_append]
  exact List.append_nil _

theorem received_data (q : List Outcome) (c : UInt8) (r : Text) :
    received (q ++ [.data c r]) = received q ++ (c :: r) := by
  rw [received_append]
  simp [received]

theorem Running.server (hs : Running lines s) : s.server ≠ .ended := by
  intro hended
  cases hs.turn with
  | idle _ hserver => simp [hended] at hserver
  | asking _ _ hserver => simp [hended] at hserver
  | answering _ _ hserver => simp [hended] at hserver

/-- A line is taken from the user when nothing is under way. -/
theorem running_fgets {rest : Text} (hs : Running lines s)
    (h : clientNext s (.fgets rest) = some s') : Running lines s' := by
  simp only [clientNext] at h
  split at h
  · next line todo hclient htodo =>
    rw [Option.ite_none_right_eq_some] at h
    obtain rfl := Option.some.inj h.2
    have hlines : (s.asked ++ [line]) ++ todo = lines := by
      rw [← hs.lines, htodo, List.append_assoc, List.singleton_append]
    cases hs.turn with
    | idle _ hserver hup hdown hasked hshown hreads =>
      refine { hs with
        lines := hlines
        turn := .asking line (Or.inr ⟨_, rfl⟩) hserver ?_ hdown ?_ hshown ?_ }
      · simp only [requestBytes, toSend, hclient, List.append_nil] at hup ⊢
        rw [hup, List.nil_append]
      · rw [hasked]
      · exact hreads.resolve_right fun hfin => by simp [hclient] at hfin
    | asking _ hcl => simp [hclient] at hcl
    | answering _ hcl => simp [hclient] at hcl
  · cases h

theorem running_close (hs : Running lines s) (h : clientNext s .close = some s') :
    Running lines s' := by
  simp only [clientNext] at h
  split at h
  · next hprompt =>
    obtain ⟨hclient, -⟩ := hprompt
    obtain rfl := Option.some.inj h
    cases hs.turn with
    | idle _ hserver hup hdown hasked hshown hreads =>
      refine { hs with turn := .idle (Or.inr rfl) hserver ?_ hdown hasked hshown ?_ }
      · simpa only [requestBytes, toSend, hclient] using hup
      · exact hreads.imp_right fun hfin => ⟨rfl, hfin.2⟩
    | asking _ hcl => simp [hclient] at hcl
    | answering _ hcl => simp [hclient] at hcl
  · cases h

/-- Bytes that are written are under way as before. -/
theorem running_send (hs : Running lines s) (h : clientNext s (.send k) = some s') :
    Running lines s' := by
  simp only [clientNext] at h
  split at h
  · next rest hclient =>
    split at h
    · next hk =>
      obtain rfl := Option.some.inj h
      rw [if_neg hs.server]
      cases hs.turn with
      | idle hcl => simp [hclient] at hcl
      | asking cur _ hserver hup hdown hasked hshown hreads =>
        refine { hs with
          turn := .asking cur (Or.inr ⟨_, rfl⟩) hserver ?_ hdown hasked hshown hreads }
        simp only [requestBytes, toSend, hclient] at hup ⊢
        rw [← List.append_assoc, List.append_assoc, List.take_append_drop, hup]
      | answering _ hcl =>
        rcases hcl with hcl | hcl
        · rw [hclient] at hcl
          cases hcl
        · rw [hclient, ClientPhase.writing.injEq] at hcl
          simp [hcl] at hk
    · cases h
  · cases h

theorem running_sent (hs : Running lines s) (h : clientNext s .sent = some s') :
    Running lines s' := by
  simp only [clientNext] at h
  split at h
  · next hclient =>
    obtain rfl := Option.some.inj h
    have hsend : requestBytes { s with client := .reading } = requestBytes s := by
      simp only [requestBytes, toSend, hclient]
    refine { hs with turn := ?_ }
    cases hs.turn with
    | idle hcl => simp [hclient] at hcl
    | asking cur _ hserver hup hdown hasked hshown hreads =>
      exact .asking cur (Or.inl rfl) hserver (hsend.trans hup) hdown hasked hshown hreads
    | answering res _ hserver hup hdown hasked hshown hreads =>
      exact .answering res (Or.inl rfl) hserver (hsend.trans hup) hdown hasked hshown hreads
  · cases h

/-- Outcomes that change nothing that is under way. -/
theorem running_creads {creads : List Outcome} {down : Text} (hs : Running lines s)
    (hquiet : Quiet creads) (hsame : received creads ++ down = received s.creads ++ s.down) :
    Running lines { s with creads := creads, down := down } := by
  have hreply : replyBytes { s with creads := creads, down := down } = replyBytes s := by
    simp only [replyBytes, toWrite, hsame]
  refine { hs with creads := hquiet, turn := ?_ }
  cases hs.turn with
  | idle hclient hserver hup hdown hasked hshown hreads =>
    exact .idle hclient hserver hup (hreply.trans hdown) hasked hshown hreads
  | asking cur hclient hserver hup hdown hasked hshown hreads =>
    exact .asking cur hclient hserver hup (hreply.trans hdown) hasked hshown hreads
  | answering res hclient hserver hup hdown hasked hshown hreads =>
    exact .answering res hclient hserver hup (hreply.trans hdown) hasked hshown hreads

/-- The client prints the whole reply. -/
theorem running_fputs (hs : Running lines s) (h : clientNext s .fputs = some s') :
    Running lines s' := by
  simp only [clientNext] at h
  split at h
  swap
  · cases h
  next hclient =>
  obtain ⟨b, hb, rfl⟩ := Option.map_eq_some_iff.mp h
  rw [hs.crio] at hb
  cases hs.turn with
  | idle hcl => simp [hclient] at hcl
  | asking cur _ hserver hup hdown =>
    simp only [replyBytes, List.append_eq_nil_iff] at hdown
    obtain ⟨hlen, -⟩ := rioReadnb_block hs.creads (by rw [hdown.1.1]; exact Nat.zero_le _) hb
    rw [hdown.1.1] at hlen
    exact absurd hlen (by decide)
  | answering res _ hserver hup hdown hasked hshown hreads =>
    have hres : res.length = maxline := hs.blocks res (by rw [hshown]; simp)
    have hlength := congrArg List.length hdown
    simp only [replyBytes, List.length_append] at hlength
    obtain ⟨hlen, q', hquiet', hdry, rfl⟩ := rioReadnb_block hs.creads (by omega) hb
    have hdownnil : s.down = [] := List.length_eq_zero_iff.mp (by omega)
    have hwritenil : toWrite s = [] := List.length_eq_zero_iff.mp (by omega)
    have hall : received s.creads = res := by
      simpa only [replyBytes, hdownnil, hwritenil, List.append_nil] using hdown
    refine { hs with
      crio := rfl, creads := hquiet'
      turn := .idle (Or.inl rfl) ?_ ?_ ?_ hasked (by rw [hshown, hall]) (Or.inl hreads) }
    · refine hserver.imp_right fun hwriting => ?_
      obtain ⟨rest, hrest⟩ := hwriting
      rw [toWrite, hrest] at hwritenil
      simp only at hwritenil
      rw [hrest, hwritenil]
    · simpa only [requestBytes, toSend, hclient] using hup
    · simp only [replyBytes, hdry, hdownnil, List.nil_append]
      exact hwritenil

theorem running_client (hs : Running lines s) (h : clientNext s m = some s') :
    Running lines s' := by
  have hserver := hs.server
  cases m with
  | fgets rest => exact running_fgets hs h
  | close => exact running_close hs h
  | send k => exact running_send hs h
  | sendFails =>
    simp only [clientNext, if_neg hserver] at h
    split at h <;> cases h
  | sent => exact running_sent hs h
  | receive k =>
    simp only [clientNext] at h
    split at h
    · obtain ⟨⟨o, down⟩, hchunk, rfl⟩ := Option.map_eq_some_iff.mp h
      obtain ⟨c, r, rfl, hdown⟩ := chunk_spec hchunk
      refine running_creads hs hs.creads.data ?_
      rw [received_data, hdown, List.append_assoc]
    · cases h
  | receiveIntr =>
    simp only [clientNext] at h
    split at h
    · obtain rfl := Option.some.inj h
      exact running_creads hs (quiet_intr hs.creads) (by rw [received_intr])
    · cases h
  | receiveEof =>
    simp only [clientNext, hserver, and_false, if_false] at h
    cases h
  | receiveError =>
    simp only [clientNext, hserver, and_false, if_false] at h
    cases h
  | fputs => exact running_fputs hs h
  | read | readIntr | readEof | request | hangup | write | written | exit => cases h

/-- Behind its last byte and the end of the file the line reader returns 0. -/
theorem rioReadlineb_gone {line : Line} (hquiet : Quiet q) (hdry : received q = [])
    (h : rioReadlineb ⟨[]⟩ maxline (q ++ [.eof]) = some line) : line.rc = 0 := by
  rw [line_end hquiet hdry] at h
  rw [← Option.some.inj h]

/-- What a call of the line reader has returned: the line that is under way, or 0. -/
theorem running_line {line : Line} (hs : Running lines s)
    (h : rioReadlineb s.srio maxline s.sreads = some line) :
    (line.rc = 0 ∧ s.client = .finished) ∨
      ∃ cur q', Single cur ∧ Whole cur ∧ Quiet q' ∧ received q' = [] ∧ s.up ++ toSend s = [] ∧
        line = ⟨cur.length, cur, ⟨[]⟩, q'⟩ ∧ replyBytes s = [] ∧
        s.asked = s.served ++ [cur] ∧ s.replies = s.shown ∧
        (s.client = .reading ∨ s.client = .writing []) := by
  rw [hs.srio] at h
  cases hs.turn with
  | idle hclient _ hup _ _ _ hreads =>
    rcases hreads with hquiet | ⟨hfin, q, hquiet, hdry, hq⟩
    · have hdry : received s.sreads = [] := by
        simp only [requestBytes, List.append_eq_nil_iff] at hup
        exact hup.1.1
      rw [rioReadlineb_dry hquiet hdry] at h
      cases h
    · rw [hq] at h
      exact Or.inl ⟨rioReadlineb_gone hquiet hdry h, hfin⟩
  | asking cur hclient _ hup hdown hasked hshown hquiet =>
    have hcur : Single cur := hs.single cur (by rw [← hs.lines, hasked]; simp)
    have hprefix : received s.sreads <+: cur := by
      rw [← hup, requestBytes, List.append_assoc]
      exact List.prefix_append _ _
    obtain ⟨hall, hwhole, q', hquiet', hdry, hline⟩ :=
      rioReadlineb_single hcur hquiet hprefix h
    have hnone : s.up ++ toSend s = [] := by
      simpa only [requestBytes, List.append_assoc, hall, List.append_right_eq_self] using hup
    refine Or.inr ⟨cur, q', hcur, hwhole, hquiet', hdry, hnone, hline, hdown, hasked, hshown, ?_⟩
    refine hclient.imp_right fun hwriting => ?_
    obtain ⟨rest, hrest⟩ := hwriting
    have hsent := (List.append_eq_nil_iff.mp hnone).2
    rw [toSend, hrest] at hsent
    simp only at hsent
    rw [hrest, hsent]
  | answering res _ _ hup _ _ _ hquiet =>
    have hdry : received s.sreads = [] := by
      simp only [requestBytes, List.append_eq_nil_iff] at hup
      exact hup.1.1
    rw [rioReadlineb_dry hquiet hdry] at h
    cases h

theorem whole_pos {cur : Text} (h : Whole cur) : (cur.length : Int) ≠ 0 := by
  intro hzero
  have hnil : cur = [] := List.length_eq_zero_iff.mp (by omega)
  rw [Whole, hnil, cutLine_nil] at h
  cases h

/-- The line that was asked is read, and a block is passed to Rio_writen. -/
theorem running_request {res : Text} (hs : Running lines s)
    (h : serverNext s (.request res) = some s') : Running lines s' := by
  simp only [serverNext] at h
  split at h
  swap
  · cases h
  next line hserver hline =>
  split at h
  swap
  · cases h
  next hcond =>
  obtain ⟨hrc, hres⟩ := hcond
  obtain rfl := Option.some.inj h
  rcases running_line hs hline with ⟨hzero, -⟩ |
    ⟨cur, q', -, -, hquiet', hdry, hnone, rfl, hdown, hasked, hshown, hclient⟩
  · exact absurd hzero hrc
  · refine { hs with
      count := by simp [hs.count]
      blocks := ?_
      srio := rfl
      turn := .answering res hclient (Or.inr ⟨res, rfl⟩) ?_ ?_ hasked (by rw [hshown]) hquiet' }
    · intro r hr
      rcases List.mem_append.mp hr with hr | hr
      · exact hs.blocks r hr
      · rw [List.mem_singleton.mp hr]
        exact hres
    · simp only [requestBytes, hdry, List.nil_append]
      exact hnone
    · simp only [replyBytes, List.append_eq_nil_iff] at hdown ⊢
      rw [hdown.1.1, hdown.1.2]
      rfl

/-- A read of the server that waits has met no end. -/
theorem running_waits (hs : Running lines s) (hwaits : s.serverWaits) : Quiet s.sreads := by
  cases hs.turn with
  | idle _ _ _ _ _ _ hreads =>
    refine hreads.resolve_right ?_
    rintro ⟨-, q, hq, hdry, heq⟩
    have hnone := hwaits.2
    rw [hs.srio, heq, line_end hq hdry] at hnone
    cases hnone
  | asking _ _ _ _ _ _ _ hreads => exact hreads
  | answering _ _ _ _ _ _ _ hreads => exact hreads

/-- Outcomes of the server that change nothing that is under way. -/
theorem running_sreads {sreads : List Outcome} {up : Text} (hs : Running lines s)
    (hquiet : Quiet sreads) (hsame : received sreads ++ up = received s.sreads ++ s.up) :
    Running lines { s with sreads := sreads, up := up } := by
  have hrequest : requestBytes { s with sreads := sreads, up := up } = requestBytes s := by
    simp only [requestBytes, toSend, hsame]
  refine { hs with turn := ?_ }
  cases hs.turn with
  | idle hclient hserver hup hdown hasked hshown _ =>
    exact .idle hclient hserver (hrequest.trans hup) hdown hasked hshown (Or.inl hquiet)
  | asking cur hclient hserver hup hdown hasked hshown _ =>
    exact .asking cur hclient hserver (hrequest.trans hup) hdown hasked hshown hquiet
  | answering res hclient hserver hup hdown hasked hshown _ =>
    exact .answering res hclient hserver (hrequest.trans hup) hdown hasked hshown hquiet

theorem running_write (hs : Running lines s) (h : serverNext s (.write k) = some s') :
    Running lines s' := by
  simp only [serverNext] at h
  split at h
  swap
  · cases h
  next rest hserver =>
  split at h
  swap
  · cases h
  next hk =>
  obtain rfl := Option.some.inj h
  have hreply : replyBytes { s with
      server := .writing (rest.drop (k + 1)), down := s.down ++ rest.take (k + 1) } =
        replyBytes s := by
    simp only [replyBytes, toWrite, hserver]
    rw [← List.append_assoc, List.append_assoc, List.take_append_drop]
  have hbusy : ¬ (s.server = .reading ∨ s.server = .writing []) := by
    rw [hserver]
    rintro (hreading | hwriting)
    · cases hreading
    · rw [ServerPhase.writing.injEq] at hwriting
      simp [hwriting] at hk
  refine { hs with turn := ?_ }
  cases hs.turn with
  | idle _ hcl => exact absurd hcl hbusy
  | asking cur _ hcl => exact absurd hcl hbusy
  | answering res hclient _ hup hdown hasked hshown hreads =>
    exact .answering res hclient (Or.inr ⟨_, rfl⟩) hup (hreply.trans hdown) hasked hshown hreads

theorem running_written (hs : Running lines s) (h : serverNext s .written = some s') :
    Running lines s' := by
  simp only [serverNext] at h
  split at h
  swap
  · cases h
  next hserver =>
  obtain rfl := Option.some.inj h
  have hreply : replyBytes { s with server := .reading } = replyBytes s := by
    simp only [replyBytes, toWrite, hserver]
  refine { hs with turn := ?_ }
  cases hs.turn with
  | idle hclient _ hup hdown hasked hshown hreads =>
    exact .idle hclient (Or.inl rfl) hup (hreply.trans hdown) hasked hshown hreads
  | asking cur hclient _ hup hdown hasked hshown hreads =>
    exact .asking cur hclient (Or.inl rfl) hup (hreply.trans hdown) hasked hshown hreads
  | answering res hclient _ hup hdown hasked hshown hreads =>
    exact .answering res hclient (Or.inl rfl) hup (hreply.trans hdown) hasked hshown hreads

/-- The server is gone. -/
theorem running_left (hs : Running lines s) : Left lines { s with server := .ended } := by
  have hcases : s.served <+: s.asked ∧ s.shown <+: s.replies ∧
      replyBytes s <+: s.replies.getD s.shown.length [] := by
    cases hs.turn with
    | idle _ _ _ hdown hasked hshown =>
      rw [hasked, hshown, hdown]
      exact ⟨List.prefix_rfl, List.prefix_rfl, List.nil_prefix⟩
    | asking cur _ _ _ hdown hasked hshown =>
      rw [hasked, hshown, hdown]
      exact ⟨List.prefix_append _ _, List.prefix_rfl, List.nil_prefix⟩
    | answering res _ _ _ hdown hasked hshown =>
      rw [hasked, hshown, hdown]
      refine ⟨List.prefix_rfl, List.prefix_append _ _, ?_⟩
      simp [List.getD_eq_getElem?_getD]
  obtain ⟨hserved, ⟨t, ht⟩, hpending⟩ := hcases
  refine { hs with
    ended := rfl
    served := hserved
    shown := fun k => ?_
    pending := List.IsPrefix.trans ?_ hpending
    creads := Or.inl hs.creads }
  · simp only [← ht, List.getD_eq_getElem?_getD]
    by_cases hk : k < s.shown.length
    · rw [List.getElem?_append_left hk]
    · rw [List.getElem?_eq_none (not_lt.mp hk)]
      exact List.nil_prefix
  · exact List.prefix_append _ _

theorem running_server (hs : Running lines s) (h : serverNext s m = some s') :
    Sound lines s' := by
  cases m with
  | read k =>
    simp only [serverNext] at h
    split at h
    · next hwaits =>
      obtain ⟨⟨o, up⟩, hchunk, rfl⟩ := Option.map_eq_some_iff.mp h
      obtain ⟨c, r, rfl, hup⟩ := chunk_spec hchunk
      refine Or.inl (running_sreads hs (running_waits hs hwaits).data ?_)
      rw [received_data, hup, List.append_assoc]
    · cases h
  | readIntr =>
    simp only [serverNext] at h
    split at h
    · next hwaits =>
      obtain rfl := Option.some.inj h
      exact Or.inl (running_sreads hs (quiet_intr (running_waits hs hwaits))
        (by rw [received_intr]))
    · cases h
  | readEof =>
    simp only [serverNext] at h
    split at h
    · next hcond =>
      obtain ⟨hwaits, hup, hfin⟩ := hcond
      obtain rfl := Option.some.inj h
      have hquiet := running_waits hs hwaits
      refine Or.inl { hs with turn := ?_ }
      cases hs.turn with
      | idle hclient hserver hrequest hdown hasked hshown _ =>
        have hdry : received s.sreads = [] := by
          simp only [requestBytes, List.append_eq_nil_iff] at hrequest
          exact hrequest.1.1
        refine .idle hclient hserver ?_ hdown hasked hshown
          (Or.inr ⟨hfin, _, hquiet, hdry, rfl⟩)
        simp only [requestBytes, received_append, hdry, hup, toSend, hfin]
        rfl
      | asking cur hclient => simp [hfin] at hclient
      | answering res hclient => simp [hfin] at hclient
    · cases h
  | request res => exact Or.inl (running_request hs h)
  | hangup =>
    simp only [serverNext] at h
    split at h
    · split at h
      · obtain rfl := Option.some.inj h
        exact Or.inr (running_left hs)
      · cases h
    · cases h
  | write k => exact Or.inl (running_write hs h)
  | written => exact Or.inl (running_written hs h)
  | exit =>
    simp only [serverNext] at h
    split at h
    · obtain rfl := Option.some.inj h
      exact Or.inr (running_left hs)
    · cases h
  | fgets | close | send | sendFails | sent | receive | receiveIntr | receiveEof | receiveError
  | fputs => cases h

end ServerRuns

section ServerGone

variable {lines : List Text} {s s' : State} {m : Move} {q : List Outcome} {k : ℕ}

/-- A read of the client that waits has met neither an end nor a failure, and has not all
bytes of a block. -/
theorem left_waits (hs : Left lines s) (hwaits : s.clientWaits) :
    Quiet s.creads ∧ (received s.creads).length < maxline := by
  have hnone := hwaits.2
  rw [hs.crio] at hnone
  have hquiet : Quiet s.creads := by
    refine hs.creads.resolve_right ?_
    rintro ⟨-, q, hq, hlt, heq | heq⟩
    · rw [heq, rioReadnb_eof (u := []) hq hlt []] at hnone
      cases hnone
    · rw [heq, rioReadnb_error (u := []) hq hlt []] at hnone
      cases hnone
  refine ⟨hquiet, not_le.mp fun hle => ?_⟩
  obtain ⟨u', q', -, -, hfull⟩ := rioReadnb_full (u := []) hquiet hle []
  rw [List.append_nil] at hfull
  rw [hfull] at hnone
  cases hnone

/-- What a call of rio_readnb copies once the server is gone, and that nothing is left. -/
theorem left_block {b : Block} (hs : Left lines s)
    (h : rioReadnb s.crio maxline s.creads = some b) :
    b.bytes = received s.creads ∧ b.rio = ⟨[]⟩ ∧ Quiet b.outcomes ∧
      received b.outcomes ++ s.down = [] := by
  have hreply := getD_length hs.blocks s.shown.length
  have hpending := hs.pending.length_le
  rw [List.length_append] at hpending
  rw [hs.crio] at h
  rcases hs.creads with hquiet | ⟨hdown, q, hq, hlt, hend⟩
  · obtain ⟨hlen, q', hquiet', hdry, rfl⟩ := rioReadnb_block hquiet (by omega) h
    have hnone : s.down = [] := List.length_eq_zero_iff.mp (by omega)
    exact ⟨rfl, rfl, hquiet', by rw [hdry, hnone]; rfl⟩
  · have hdry : ∀ o, received [o] = [] → received (q ++ [o]) = received q := by
      intro o ho
      rw [received_append, ho, List.append_nil]
    rcases hend with heq | heq
    · rw [heq, rioReadnb_eof (u := []) hq hlt []] at h
      obtain rfl := Option.some.inj h
      exact ⟨by rw [heq, hdry _ rfl]; rfl, rfl, quiet_nil, by rw [hdown]; rfl⟩
    · rw [heq, rioReadnb_error (u := []) hq hlt []] at h
      obtain rfl := Option.some.inj h
      exact ⟨by rw [heq, hdry _ rfl]; rfl, rfl, quiet_nil, by rw [hdown]; rfl⟩

/-- Outcomes of the client that change nothing that is under way. -/
theorem left_creads {creads : List Outcome} {down : Text} (hs : Left lines s)
    (hquiet : Quiet creads) (hsame : received creads ++ down = received s.creads ++ s.down) :
    Left lines { s with creads := creads, down := down } :=
  { hs with pending := hsame ▸ hs.pending, creads := Or.inl hquiet }

/-- The end of the file, or a failure, behind the last byte. -/
theorem left_stop {o : Outcome} (hs : Left lines s) (hwaits : s.clientWaits) (hdown : s.down = [])
    (ho : o = .eof ∨ o = .error) : Left lines { s with creads := s.creads ++ [o] } := by
  obtain ⟨hquiet, hlt⟩ := left_waits hs hwaits
  have hdry : received [o] = [] := by
    rcases ho with rfl | rfl <;> rfl
  refine { hs with
    pending := ?_
    creads := Or.inr ⟨hdown, s.creads, hquiet, hlt, ho.imp (fun h => ?_) fun h => ?_⟩ }
  · rw [received_append, hdry, List.append_nil]
    exact hs.pending
  · rw [h]
  · rw [h]

/-- The client prints what has come of the last reply, or nothing. -/
theorem left_fputs {b : Block} {printed : List (Option Text)} {buf : Text} (hs : Left lines s)
    (h : rioReadnb s.crio maxline s.creads = some b) :
    Left lines { s with
      shown := s.shown ++ [b.bytes], printed := printed, client := .prompt, buf := buf
      crio := b.rio, creads := b.outcomes } := by
  obtain ⟨hbytes, hrio, hquiet, hnone⟩ := left_block hs h
  refine { hs with
    crio := hrio
    shown := fun k => ?_
    pending := by rw [hnone]; exact List.nil_prefix
    creads := Or.inl hquiet }
  have hold := hs.shown k
  simp only [List.getD_eq_getElem?_getD] at hold ⊢
  rcases lt_trichotomy k s.shown.length with hk | rfl | hk
  · rwa [List.getElem?_append_left hk]
  · rw [List.getElem?_append_right le_rfl, Nat.sub_self, hbytes]
    have hpending := hs.pending
    rw [List.getD_eq_getElem?_getD] at hpending
    exact (List.prefix_append _ _).trans hpending
  · rw [List.getElem?_append_right hk.le, List.getElem?_eq_none (by simp; omega)]
    exact List.nil_prefix

theorem left_client (hs : Left lines s) (h : clientNext s m = some s') : Left lines s' := by
  cases m with
  | fgets rest =>
    simp only [clientNext] at h
    split at h
    · next line todo _ htodo =>
      rw [Option.ite_none_right_eq_some] at h
      obtain rfl := Option.some.inj h.2
      have hlines : (s.asked ++ [line]) ++ todo = lines := by
        rw [← hs.lines, htodo, List.append_assoc, List.singleton_append]
      exact { hs with lines := hlines, served := hs.served.trans (List.prefix_append _ _) }
    · cases h
  | close =>
    simp only [clientNext] at h
    split at h
    · obtain rfl := Option.some.inj h
      exact { hs with }
    · cases h
  | send k =>
    simp only [clientNext, if_pos hs.ended] at h
    split at h
    · split at h
      · obtain rfl := Option.some.inj h
        exact { hs with }
      · cases h
    · cases h
  | sendFails =>
    simp only [clientNext, if_pos hs.ended] at h
    split at h
    · obtain rfl := Option.some.inj h
      exact { hs with }
    · cases h
  | sent =>
    simp only [clientNext] at h
    split at h
    · obtain rfl := Option.some.inj h
      exact { hs with }
    · cases h
  | receive k =>
    simp only [clientNext] at h
    split at h
    · next hwaits =>
      obtain ⟨⟨o, down⟩, hchunk, rfl⟩ := Option.map_eq_some_iff.mp h
      obtain ⟨c, r, rfl, hdown⟩ := chunk_spec hchunk
      refine left_creads hs (left_waits hs hwaits).1.data ?_
      rw [received_data, hdown, List.append_assoc]
    · cases h
  | receiveIntr =>
    simp only [clientNext] at h
    split at h
    · next hwaits =>
      obtain rfl := Option.some.inj h
      exact left_creads hs (quiet_intr (left_waits hs hwaits).1) (by rw [received_intr])
    · cases h
  | receiveEof =>
    simp only [clientNext] at h
    split at h
    · next hcond =>
      obtain rfl := Option.some.inj h
      exact left_stop hs hcond.1 hcond.2.1 (Or.inl rfl)
    · cases h
  | receiveError =>
    simp only [clientNext] at h
    split at h
    · next hcond =>
      obtain rfl := Option.some.inj h
      exact left_stop hs hcond.1 hcond.2.1 (Or.inr rfl)
    · cases h
  | fputs =>
    simp only [clientNext] at h
    split at h
    · obtain ⟨b, hb, rfl⟩ := Option.map_eq_some_iff.mp h
      exact left_fputs hs hb
    · cases h
  | read | readIntr | readEof | request | hangup | write | written | exit => cases h

/-- A server that is gone does nothing. -/
theorem left_server (hs : Left lines s) : serverNext s m = none := by
  have hwaits : ¬ s.serverWaits := fun h => by
    have hreading := h.1
    rw [hs.ended] at hreading
    cases hreading
  cases m with
  | read | readIntr => simp only [serverNext, if_neg hwaits]
  | readEof => simp only [serverNext, hwaits, false_and, if_false]
  | request | hangup | write | written | exit => simp [serverNext, hs.ended]
  | fgets | close | send | sendFails | sent | receive | receiveIntr | receiveEof | receiveError
  | fputs => rfl

end ServerGone

section Runs

variable {lines : List Text} {s s' : State} {m : Move}

theorem sound_start (hlines : ∀ l ∈ lines, Single l) : Sound lines (start lines) :=
  Or.inl {
    single := hlines
    lines := rfl
    crio := rfl
    count := rfl
    blocks := by simp [start]
    srio := rfl
    creads := quiet_nil
    turn := .idle (Or.inl rfl) (Or.inl rfl) rfl rfl rfl rfl (Or.inl quiet_nil) }

theorem sound_step (hs : Sound lines s) (h : next s m = some s') : Sound lines s' := by
  rw [next, Option.or_eq_some_iff] at h
  rcases hs with hs | hs
  · rcases h with h | ⟨-, h⟩
    · exact Or.inl (running_client hs h)
    · exact running_server hs h
  · rcases h with h | ⟨-, h⟩
    · exact Or.inr (left_client hs h)
    · rw [left_server hs] at h
      cases h

theorem reachable_sound (hlines : ∀ l ∈ lines, Single l) (hs : (runs lines).Reachable s) :
    Sound lines s := by
  refine hs.invariant (I := Sound lines) (fun s hstart => ?_)
    fun s m s' hsound hstep => sound_step hsound hstep
  obtain rfl : s = start lines := hstart
  exact sound_start hlines

/-- What holds of the lines and of the texts whether or not the server runs. -/
theorem sound_left (hs : Sound lines s) : Left lines { s with server := .ended } := by
  rcases hs with hs | hs
  · exact running_left hs
  · exact { hs with ended := rfl }

/-- While the server runs, the replies but the last at most have been copied. -/
theorem running_shown (hs : Running lines s) :
    s.shown <+: s.replies ∧ s.replies.length ≤ s.shown.length + 1 := by
  cases hs.turn with
  | idle _ _ _ _ _ hshown =>
    rw [hshown]
    exact ⟨List.prefix_rfl, Nat.le_succ _⟩
  | asking _ _ _ _ _ _ hshown =>
    rw [hshown]
    exact ⟨List.prefix_rfl, Nat.le_succ _⟩
  | answering res _ _ _ _ _ hshown =>
    rw [hshown]
    exact ⟨List.prefix_append _ _, by simp⟩

end Runs

section Printing

variable {lines : List Text} {s s' : State} {m : Move} {line buf : Text}

structure Filled (line buf : Text) : Prop where
  line : line ++ [0] <+: buf
  length_eq : buf.length = maxline

/-- The buffer behind the bytes that were copied is as Fgets has left it. -/
def overwrite (copied buf : Text) : Text := copied ++ buf.drop copied.length

/-- The texts that were printed are those of the lines that were asked, and the buffer holds
the line that is being asked. -/
structure Printed (s : State) : Prop where
  count : s.printed.length = s.shown.length
  idle : s.client = .prompt ∨ s.client = .finished → s.asked.length = s.printed.length
  busy : (s.client = .reading ∨ ∃ rest, s.client = .writing rest) →
    s.asked.length = s.printed.length + 1 ∧
      ∃ line, s.asked[s.printed.length]? = some line ∧ Filled line s.buf
  texts : ∀ (k : ℕ) (text : Option Text), s.printed[k]? = some text →
    ∃ line buf copied, s.asked[k]? = some line ∧ Filled line buf ∧ s.shown[k]? = some copied ∧
      text = fputs (overwrite copied buf)

theorem overwrite_full {copied : Text} (h : Filled line buf) (hfull : copied.length = maxline) :
    overwrite copied buf = copied := by
  rw [overwrite, List.drop_eq_nil_of_le (h.length_eq.trans hfull.symm).le, List.append_nil]

/-- Of a block that has come whole nothing else is printed. -/
theorem Printed.full {k : ℕ} {block : Text} (hs : Printed s) (hblock : s.shown[k]? = some block)
    (hfull : block.length = maxline) : s.printed[k]? = some (fputs block) := by
  have hk : k < s.printed.length := by
    rw [hs.count]
    exact (List.getElem?_eq_some_iff.mp hblock).1
  have htext := List.getElem?_eq_getElem hk
  obtain ⟨line, buf, copied, -, hfilled, hcopied, heq⟩ := hs.texts k _ htext
  obtain rfl := Option.some.inj (hblock.symm.trans hcopied)
  rw [htext, heq, overwrite_full hfilled hfull]

theorem Printed.all (hs : Printed s) (hfull : ∀ block ∈ s.shown, block.length = maxline) :
    s.printed = s.shown.map fputs := by
  apply List.ext_getElem?
  intro k
  rw [List.getElem?_map]
  cases hblock : s.shown[k]? with
  | none =>
    rw [List.getElem?_eq_none_iff, ← hs.count] at hblock
    rw [List.getElem?_eq_none hblock, Option.map_none]
  | some block =>
    rw [hs.full hblock (hfull block (List.mem_of_getElem? hblock)), Option.map_some]

theorem printed_fgets {rest : Text} (hs : Printed s) (h : clientNext s (.fgets rest) = some s') :
    Printed s' := by
  simp only [clientNext] at h
  split at h
  · next line todo hclient _ =>
    obtain ⟨hroom, h⟩ := Option.ite_none_right_eq_some.mp h
    obtain rfl := Option.some.inj h
    have hcount := hs.idle (Or.inl hclient)
    refine ⟨hs.count, ?_, fun _ => ⟨?_, line, ?_, ?_⟩, fun k text hk => ?_⟩
    · rintro (h | h) <;> cases h
    · rw [List.length_append, hcount, List.length_singleton]
    · rw [List.getElem?_append_right hcount.le, hcount, Nat.sub_self]
      rfl
    · refine ⟨⟨rest, by simp⟩, ?_⟩
      rw [List.length_append, List.length_cons]
      omega
    · obtain ⟨old, buf, copied, hold, hrest⟩ := hs.texts k text hk
      refine ⟨old, buf, copied, ?_, hrest⟩
      rwa [List.getElem?_append_left (List.getElem?_eq_some_iff.mp hold).1]
  · cases h

/-- The bytes that came are printed over the line that was asked. -/
theorem printed_fputs (hs : Printed s) (h : clientNext s .fputs = some s') : Printed s' := by
  simp only [clientNext] at h
  split at h
  swap
  · cases h
  next hclient =>
  obtain ⟨b, -, rfl⟩ := Option.map_eq_some_iff.mp h
  obtain ⟨hcount, line, hline, hfilled⟩ := hs.busy (Or.inl hclient)
  refine ⟨?_, fun _ => ?_, ?_, fun k text hk => ?_⟩
  · rw [List.length_append, List.length_append, hs.count]
    rfl
  · rw [List.length_append, hcount]
    rfl
  · rintro (h | ⟨rest, h⟩) <;> cases h
  · rcases Nat.lt_trichotomy k s.printed.length with hlt | rfl | hgt
    · rw [List.getElem?_append_left hlt] at hk
      obtain ⟨old, buf, copied, hold, hbuf, hcopied, htext⟩ := hs.texts k text hk
      refine ⟨old, buf, copied, hold, hbuf, ?_, htext⟩
      rwa [List.getElem?_append_left (hs.count ▸ hlt)]
    · rw [List.getElem?_append_right le_rfl, Nat.sub_self] at hk
      refine ⟨line, s.buf, b.bytes, hline, hfilled, ?_, (Option.some.inj hk).symm⟩
      rw [hs.count, List.getElem?_append_right le_rfl, Nat.sub_self]
      rfl
    · rw [List.getElem?_eq_none (by rw [List.length_append]; exact hgt)] at hk
      cases hk

theorem printed_client (hs : Printed s) (h : clientNext s m = some s') : Printed s' := by
  cases m with
  | fgets rest => exact printed_fgets hs h
  | fputs => exact printed_fputs hs h
  | close =>
    simp only [clientNext] at h
    split at h
    · next hprompt =>
      obtain rfl := Option.some.inj h
      exact { hs with
        idle := fun _ => hs.idle (Or.inl hprompt.1)
        busy := fun hbusy => by rcases hbusy with h | ⟨rest, h⟩ <;> cases h }
    · cases h
  | send k =>
    simp only [clientNext] at h
    split at h
    · next rest hclient =>
      obtain ⟨-, h⟩ := Option.ite_none_right_eq_some.mp h
      obtain rfl := Option.some.inj h
      exact { hs with
        idle := fun hidle => by rcases hidle with h | h <;> cases h
        busy := fun _ => hs.busy (Or.inr ⟨_, hclient⟩) }
    · cases h
  | sendFails =>
    simp only [clientNext] at h
    split at h
    · obtain ⟨-, h⟩ := Option.ite_none_right_eq_some.mp h
      obtain rfl := Option.some.inj h
      exact { hs with
        idle := fun hidle => by rcases hidle with h | h <;> cases h
        busy := fun hbusy => by rcases hbusy with h | ⟨rest, h⟩ <;> cases h }
    · cases h
  | sent =>
    simp only [clientNext] at h
    split at h
    · next hclient =>
      obtain rfl := Option.some.inj h
      exact { hs with
        idle := fun hidle => by rcases hidle with h | h <;> cases h
        busy := fun _ => hs.busy (Or.inr ⟨_, hclient⟩) }
    · cases h
  | receive k =>
    simp only [clientNext] at h
    split at h
    · obtain ⟨x, -, rfl⟩ := Option.map_eq_some_iff.mp h
      exact { hs with }
    · cases h
  | receiveIntr | receiveEof | receiveError =>
    simp only [clientNext] at h
    split at h
    · obtain rfl := Option.some.inj h
      exact { hs with }
    · cases h
  | read | readIntr | readEof | request | hangup | write | written | exit => cases h

/-- The server does not touch what the client has. -/
theorem serverNext_client (h : serverNext s m = some s') : s'.asked = s.asked ∧
    s'.shown = s.shown ∧ s'.printed = s.printed ∧ s'.client = s.client ∧ s'.buf = s.buf := by
  cases m with
  | read k =>
    simp only [serverNext] at h
    split at h
    · obtain ⟨x, -, rfl⟩ := Option.map_eq_some_iff.mp h
      exact ⟨rfl, rfl, rfl, rfl, rfl⟩
    · cases h
  | fgets | close | send | sendFails | sent | receive | receiveIntr | receiveEof | receiveError
  | fputs => cases h
  | _ =>
    simp only [serverNext] at h
    repeat' split at h
    all_goals first
      | cases h
        done
      | obtain rfl := Option.some.inj h
        exact ⟨rfl, rfl, rfl, rfl, rfl⟩

theorem reachable_printed (hs : (runs lines).Reachable s) : Printed s := by
  refine hs.invariant (I := Printed) (fun s hstart => ?_) fun s m s' hprinted hstep => ?_
  · obtain rfl : s = start lines := hstart
    refine ⟨rfl, fun _ => rfl, ?_, fun k text hk => ?_⟩
    · rintro (h | ⟨rest, h⟩) <;> cases h
    · rw [show (start lines).printed = [] from rfl, List.getElem?_nil] at hk
      cases hk
  · rcases Option.or_eq_some_iff.mp hstep with h | ⟨-, h⟩
    · exact printed_client hprinted h
    · obtain ⟨hasked, hshown, htexts, hclient, hbuf⟩ := serverNext_client h
      constructor
      · rw [htexts, hshown]
        exact hprinted.count
      · rw [hclient, hasked, htexts]
        exact hprinted.idle
      · rw [hclient, hasked, htexts, hbuf]
        exact hprinted.busy
      · rw [htexts, hasked, hshown]
        exact hprinted.texts

/-- What has been copied of replies that are whole is what is printed. -/
theorem printed_shown (hlines : ∀ l ∈ lines, Single l) (hs : (runs lines).Reachable s)
    (hshown : s.shown <+: s.replies) : s.printed = s.shown.map fputs :=
  (reachable_printed hs).all fun block hblock =>
    (sound_left (reachable_sound hlines hs)).blocks block (hshown.subset hblock)

/-- In every state that is reached: the server has read the first of the lines that were
sent, one request each, and has answered each of them once; the k-th text that the client
prints is what its buffer holds when a beginning of the k-th reply has been copied over the
k-th line. As long as the server runs it is the whole reply, and at most one reply has not
been printed. -/
theorem replies_in_order (hlines : ∀ l ∈ lines, Single l) (hs : (runs lines).Reachable s) :
    s.asked <+: lines ∧ s.served <+: s.asked ∧ s.replies.length = s.served.length ∧
      (∀ k text, s.printed[k]? = some text → ∃ line buf copied, s.asked[k]? = some line ∧
        Filled line buf ∧ copied <+: s.replies.getD k [] ∧
        text = fputs (overwrite copied buf)) ∧
      (s.server ≠ .ended → s.printed <+: s.replies.map fputs ∧
        s.replies.length ≤ s.printed.length + 1) := by
  have hsound := reachable_sound hlines hs
  have hleft := sound_left hsound
  have hprinted := reachable_printed hs
  refine ⟨⟨s.todo, hleft.lines⟩, hleft.served, hleft.count, fun k text hk => ?_,
    fun hserver => ?_⟩
  · obtain ⟨line, buf, copied, hline, hfilled, hcopied, htext⟩ := hprinted.texts k text hk
    have hbefore : s.shown.getD k [] <+: s.replies.getD k [] := hleft.shown k
    rw [List.getD_eq_getElem?_getD, hcopied, Option.getD_some] at hbefore
    exact ⟨line, buf, copied, hline, hfilled, hbefore, htext⟩
  · obtain ⟨hbefore, hcount⟩ := running_shown (hsound.resolve_right fun hs => hserver hs.ended)
    rw [printed_shown hlines hs hbefore, List.length_map]
    exact ⟨hbefore.map fputs, hcount⟩

/-- The server answers with a text of two bytes, has written one of them and exits. -/
theorem replies_in_order_exit : ∃ s, (runs [[120, newline]]).Reachable s ∧
    s.printed = [some [104, newline]] ∧ ∃ line buf copied, s.asked[0]? = some line ∧
      Filled line buf ∧ copied <+: s.replies.getD 0 [] ∧
      some [104, newline] = fputs (overwrite copied buf) := by
  have hstart : ((runs [[120, newline]]).guarded fun _ _ => True).Reachable
      (start [[120, newline]]) := .initial rfl
  have hrun : (System.perform next (fun _ _ => True) (start [[120, newline]])
      [.fgets (.replicate 8189 0), .send 1, .sent, .read 1,
        .request (104 :: 105 :: .replicate 8190 0), .write 0, .exit, .receive 0, .receiveEof,
        .fputs]).map State.printed = some [some [104, newline]] := by decide +kernel
  obtain ⟨s, hs, hprinted⟩ := Option.map_eq_some_iff.mp hrun
  have hlines : ∀ l ∈ [[120, newline]], Single l := by
    intro l hl
    rw [List.mem_singleton.mp hl]
    exact ⟨by decide, by decide⟩
  have hreach := (hstart.perform hs).of_guarded
  exact ⟨s, hreach, hprinted,
    (replies_in_order hlines hreach).2.2.2.1 0 _ (by rw [hprinted]; rfl)⟩

end Printing

end SystemSoftware.ConversationTurns
