import SystemSoftware.ConnectionPool
import SystemSoftware.Transitions

/-!
Request framing of the event-driven server. Bytes arrive on a socket between
the rounds in any pieces. `write_pool` reads with a copy of the client's reader
and drops what the copy holds after one line, and it parses what is there when
a read fails. The requests are the lines of the stream as long as each read
finds one whole line and nothing behind it, or the end of the stream.
-/
namespace SystemSoftware.PoolRuns

open DecimalText StockTree RequestParser RioBuffer ConnectionPool Transitions

def lines (t : Text) : List Text := (t.splitOnP (· == newline)).dropLast.map (· ++ [newline])

/-- The calls of `parser` for the lines of a text, one each. -/
def requests (t : Text) : List (Int × Text) := (lines t).map fun l => ((l.length : Int), l)

/-- The requests parsed so far are the first lines of the stream, and all of them
once everything that arrived has been read. -/
def Framed (sock : Socket) : Prop :=
  sock.parsed <+: requests sock.received ∧ (sock.inbox = [] → sock.parsed = requests sock.received)

inductive Action
  | arrive (fd : Int) (bytes : Text)
  | hangUp (fd : Int)
  | reset (fd : Int)
  | round (r : Round)

def readable (s : Server) (fd : Int) : Prop :=
  (s.sockets fd).inbox ≠ [] ∨ (s.sockets fd).peer ≠ .connected

inductive Step : Server → Action → Server → Prop
  | arrive {s : Server} {fd : Int} {bytes : Text} (hopen : (s.sockets fd).isOpen = true)
      (hpeer : (s.sockets fd).peer = .connected) :
      Step s (.arrive fd bytes) (s.setSocket fd { s.sockets fd with
        inbox := (s.sockets fd).inbox ++ bytes
        received := (s.sockets fd).received ++ bytes })
  | hangUp {s : Server} {fd : Int} (hpeer : (s.sockets fd).peer = .connected) :
      Step s (.hangUp fd) (s.setSocket fd { s.sockets fd with peer := .closed })
  | reset {s : Server} {fd : Int} :
      Step s (.reset fd) (s.setSocket fd { s.sockets fd with peer := .reset })
  | round {s s' : Server} {r : Round}
      (hselect : ∀ fd, r.ready fd = true →
        s.pool.readSet fd = true ∧ (fd = s.listenfd ∨ readable s fd))
      (haccept : r.ready s.listenfd = true →
        r.connfd ≠ s.listenfd ∧ (s.sockets r.connfd).isOpen = false)
      (hcall : ConnectionPool.round s r = some s') :
      Step s (.round r) s'

def Started (s : Server) : Prop :=
  s.pool = initPool s.listenfd ∧ ∀ fd, s.sockets fd = ⟨[], .connected, false, [], []⟩

def runs : System Server Action := ⟨Started, Step⟩

/-- What there is to read is one line that fits the buffer, or the end of the stream. -/
def WholeLine (sock : Socket) : Prop :=
  (∃ l, newline ∉ l ∧ sock.inbox = l ++ [newline] ∧ sock.inbox.length < maxline) ∨
    (sock.inbox = [] ∧ sock.peer = .closed)

/-- Every client that is read in the round has sent one whole line, or has closed and not reset
the connection. -/
def WholeLines (s : Server) : Action → Prop
  | .round r => ∀ fd, r.ready fd = true → fd ≠ s.listenfd → WholeLine (s.sockets fd)
  | _ => True

section Lines

variable {l t u : Text}

theorem splitOnP_line (hl : newline ∉ l) (u : Text) :
    (l ++ newline :: u).splitOnP (· == newline) = l :: u.splitOnP (· == newline) := by
  apply List.splitOnP_append_cons_of_forall_mem
  · intro c hc
    exact beq_eq_false_iff_ne.mpr fun heq => hl (heq ▸ hc)
  · exact beq_self_eq_true newline

theorem lines_line (hl : newline ∉ l) (u : Text) :
    lines (l ++ newline :: u) = (l ++ [newline]) :: lines u := by
  rw [lines, splitOnP_line hl, List.dropLast_cons_of_ne_nil (List.splitOnP_ne_nil _ u),
    List.map_cons]
  rfl

theorem requests_line (hl : newline ∉ l) (u : Text) : requests (l ++ [newline] ++ u) =
    (((l ++ [newline]).length : Int), l ++ [newline]) :: requests u := by
  rw [List.append_assoc, List.singleton_append, requests, lines_line hl, List.map_cons]
  rfl

end Lines

/-- What was parsed is lines with their lengths, and with what is still to be
read it makes up what has arrived. -/
structure Tracked (sock : Socket) : Prop where
  whole : ∀ r ∈ sock.parsed, ∃ l, newline ∉ l ∧ r.2 = l ++ [newline] ∧ r.1 = r.2.length
  received : sock.received = (sock.parsed.map Prod.snd).flatten ++ sock.inbox

namespace Tracked

variable {sock : Socket} {l : Text}

/-- The parsed requests come first among those of the stream. -/
theorem requests_received (h : Tracked sock) :
    requests sock.received = sock.parsed ++ requests sock.inbox := by
  have hgen : ∀ rs : List (Int × Text),
      (∀ r ∈ rs, ∃ l, newline ∉ l ∧ r.2 = l ++ [newline] ∧ r.1 = r.2.length) →
      requests ((rs.map Prod.snd).flatten ++ sock.inbox) = rs ++ requests sock.inbox := by
    intro rs hrs
    induction rs with
    | nil => rfl
    | cons r rs ih =>
      obtain ⟨l, hl, hbytes, hrc⟩ := hrs r List.mem_cons_self
      rw [List.map_cons, List.flatten_cons, List.append_assoc, hbytes, requests_line hl,
        ih fun q hq => hrs q (List.mem_cons_of_mem r hq), List.cons_append, ← hbytes, ← hrc]
  rw [h.received]
  exact hgen sock.parsed h.whole

theorem framed (h : Tracked sock) : Framed sock := by
  rw [Framed, h.requests_received]
  constructor
  · exact List.prefix_append _ _
  · intro hempty
    rw [hempty]
    exact (List.append_nil _).symm

theorem arrive (h : Tracked sock) (bytes : Text) :
    Tracked { sock with inbox := sock.inbox ++ bytes, received := sock.received ++ bytes } := by
  refine ⟨h.whole, ?_⟩
  change sock.received ++ bytes = _
  rw [h.received, List.append_assoc]

/-- Reading and parsing the one line that is there. -/
theorem parse (h : Tracked sock) (hl : newline ∉ l) (hinbox : sock.inbox = l ++ [newline]) :
    Tracked { sock with
      inbox := []
      parsed := sock.parsed ++ [((sock.inbox.length : Int), sock.inbox)] } := by
  refine ⟨?_, ?_⟩
  · intro r hr
    rcases List.mem_append.mp hr with hr | hr
    · exact h.whole r hr
    · obtain rfl := List.mem_singleton.mp hr
      exact ⟨l, hl, hinbox, rfl⟩
  · change sock.received = _
    rw [h.received]
    simp

end Tracked

section Reading

variable {sock : Socket} {l : Text}

/-- Text that fits one `read` is one outcome. -/
theorem readOutcomes_cons {c : UInt8} {r : Text} (hopen : sock.isOpen = true)
    (hinbox : sock.inbox = c :: r) (hlen : sock.inbox.length < maxline) :
    readOutcomes sock = [.data c r, if sock.peer = .closed then .eof else .error] := by
  rw [hinbox, List.length_cons] at hlen
  have hfits : r.length ≤ rioBufsize - 1 := by
    change r.length ≤ 8191
    change r.length + 1 < 8192 at hlen
    omega
  have htake : r.take (rioBufsize - 1) = r := List.take_of_length_le hfits
  have hdrop : r.drop (rioBufsize - 1) = [] := List.drop_eq_nil_of_le hfits
  have hchunks : ∀ n, chunks n [] = [] := fun n => by cases n <;> rfl
  simp only [readOutcomes, if_pos hopen, hinbox, List.length_cons, chunks, htake, hdrop, hchunks,
    List.cons_append, List.nil_append]

theorem rioReadlineb_line (hopen : sock.isOpen = true) (hl : newline ∉ l)
    (hinbox : sock.inbox = l ++ [newline]) (hlen : sock.inbox.length < maxline) :
    ∃ o, rioReadlineb ⟨[]⟩ maxline (readOutcomes sock) =
      some ⟨sock.inbox.length, sock.inbox, ⟨[]⟩, o⟩ ∧ leftover o = [] := by
  obtain ⟨c, r, hcons⟩ := List.exists_cons_of_ne_nil
    (show sock.inbox ≠ [] by rw [hinbox]; exact List.append_ne_nil_of_right_ne_nil _ (by simp))
  rw [readOutcomes_cons hopen hcons hlen]
  refine ⟨[if sock.peer = .closed then .eof else .error], ?_, ?_⟩
  · have hlen' : l.length < maxline - 1 := by
      rw [hinbox, List.length_append, List.length_singleton] at hlen
      omega
    have hloop := readlineLoop_line hl [] [if sock.peer = .closed then .eof else .error]
      (maxline - 1) 1 [] hlen'
    rw [rioReadlineb, readlineLoop_data (by decide), ← hcons, hinbox, hloop, List.length_append,
      List.length_singleton, Nat.add_comm 1, List.nil_append]
  · split <;> rfl

theorem rioReadlineb_eof (hopen : sock.isOpen = true) (hinbox : sock.inbox = [])
    (hpeer : sock.peer = .closed) :
    rioReadlineb ⟨[]⟩ maxline (readOutcomes sock) = some ⟨0, [], ⟨[]⟩, []⟩ := by
  have hone : readOutcomes sock = [.eof] := by
    simp [readOutcomes, hopen, hinbox, hpeer, chunks]
  rw [hone]
  rfl

end Reading

/-- The clients of the pool are different open sockets, and all sockets are tracked. -/
structure Tidy (s : Server) : Prop where
  readers : ∀ i, s.pool.clientrio i = ⟨[]⟩
  listed : ∀ i, 0 < s.pool.clientfd i →
    (s.sockets (s.pool.clientfd i)).isOpen = true ∧ s.pool.clientfd i ≠ s.listenfd
  distinct : ∀ i j, 0 < s.pool.clientfd i → s.pool.clientfd i = s.pool.clientfd j → i = j
  watched : ∀ fd, s.pool.readSet fd = true → fd = s.listenfd ∨ (s.sockets fd).isOpen = true
  tracked : ∀ fd, Tracked (s.sockets fd)

structure OnlySlot (s s' : Server) (i : ℕ) (connfd : Int) : Prop where
  listenfd : s'.listenfd = s.listenfd
  readySet : s'.pool.readySet = s.pool.readySet
  clientfd : ∀ j, j ≠ i → s'.pool.clientfd j = s.pool.clientfd j
  sockets : ∀ fd, fd ≠ connfd → s'.sockets fd = s.sockets fd

section Slots

variable {s s' : Server} {sock sock' : Socket} {fd connfd : Int} {i : ℕ}

@[simp] theorem setSocket_self (s : Server) (fd : Int) (sock : Socket) :
    (s.setSocket fd sock).sockets fd = sock := Function.update_self ..

theorem setSocket_of_ne (s : Server) (sock : Socket) (h : fd ≠ connfd) :
    (s.setSocket connfd sock).sockets fd = s.sockets fd := Function.update_of_ne h ..

@[simp] theorem setSocket_setSocket (s : Server) (fd : Int) (sock sock' : Socket) :
    (s.setSocket fd sock).setSocket fd sock' = s.setSocket fd sock' := by
  simp only [Server.setSocket, Function.update_idem]

theorem OnlySlot.setSocket (s : Server) (i : ℕ) (connfd : Int) (sock : Socket) :
    OnlySlot s (s.setSocket connfd sock) i connfd :=
  ⟨rfl, rfl, fun _ _ => rfl, fun _ h => setSocket_of_ne s sock h⟩

theorem OnlySlot.trans {s'' : Server} (h : OnlySlot s s' i connfd) (h' : OnlySlot s' s'' i connfd) :
    OnlySlot s s'' i connfd where
  listenfd := h'.listenfd.trans h.listenfd
  readySet := h'.readySet.trans h.readySet
  clientfd := fun j hj => (h'.clientfd j hj).trans (h.clientfd j hj)
  sockets := fun fd hfd => (h'.sockets fd hfd).trans (h.sockets fd hfd)

theorem Tidy.setSocket (h : Tidy s) (ht : Tracked sock)
    (hopen : (s.sockets fd).isOpen = true → sock.isOpen = true) :
    Tidy (s.setSocket fd sock) := by
  have hkeep : ∀ g, (s.sockets g).isOpen = true →
      ((s.setSocket fd sock).sockets g).isOpen = true := by
    intro g hg
    by_cases hgf : g = fd
    · rw [hgf] at hg ⊢
      rw [setSocket_self]
      exact hopen hg
    · rwa [setSocket_of_ne s sock hgf]
  refine ⟨h.readers, ?_, h.distinct, ?_, ?_⟩
  · intro i hi
    exact ⟨hkeep _ (h.listed i hi).1, (h.listed i hi).2⟩
  · intro g hg
    exact (h.watched g hg).imp_right (hkeep g)
  · intro g
    by_cases hg : g = fd
    · rw [hg, setSocket_self]
      exact ht
    · rw [setSocket_of_ne s sock hg]
      exact h.tracked g

/-- Removing the client of a slot. -/
theorem Tidy.remove (h : Tidy s) (hi : s.pool.clientfd i = connfd) :
    Tidy (removeClient s connfd i).1 ∧ OnlySlot s (removeClient s connfd i).1 i connfd := by
  unfold removeClient
  split
  · have hne : ∀ j, j ≠ i → 0 < s.pool.clientfd j → s.pool.clientfd j ≠ connfd := by
      intro j hj hpos' heq
      exact hj (h.distinct j i hpos' (heq.trans hi.symm))
    have hold : ∀ j, 0 < Function.update s.pool.clientfd i (-1) j →
        j ≠ i ∧ Function.update s.pool.clientfd i (-1) j = s.pool.clientfd j := by
      intro j hj
      by_cases hji : j = i
      · rw [hji, Function.update_self] at hj
        omega
      · exact ⟨hji, Function.update_of_ne hji ..⟩
    refine ⟨⟨h.readers, ?_, ?_, ?_, ?_⟩, ⟨rfl, rfl, ?_, ?_⟩⟩
    · intro j hj
      obtain ⟨hji, heq⟩ := hold j hj
      change 0 < Function.update s.pool.clientfd i (-1) j at hj
      change ((s.setSocket connfd _).sockets (Function.update s.pool.clientfd i (-1) j)).isOpen =
        true ∧ Function.update s.pool.clientfd i (-1) j ≠ s.listenfd
      rw [heq] at hj ⊢
      rw [setSocket_of_ne s _ (hne j hji hj)]
      exact h.listed j hj
    · intro j k hj heq
      obtain ⟨hji, hj'⟩ := hold j hj
      change Function.update s.pool.clientfd i (-1) j = Function.update s.pool.clientfd i (-1) k
        at heq
      change 0 < Function.update s.pool.clientfd i (-1) j at hj
      obtain ⟨hki, hk'⟩ := hold k (heq ▸ hj)
      rw [hj'] at hj heq
      rw [hk'] at heq
      exact h.distinct j k hj heq
    · intro g hg
      by_cases hgc : g = connfd
      · rw [hgc] at hg
        change Function.update s.pool.readSet connfd false connfd = true at hg
        rw [Function.update_self] at hg
        cases hg
      · change Function.update s.pool.readSet connfd false g = true at hg
        rw [Function.update_of_ne hgc] at hg
        change g = s.listenfd ∨ ((s.setSocket connfd _).sockets g).isOpen = true
        rw [setSocket_of_ne s _ hgc]
        exact h.watched g hg
    · intro g
      change Tracked ((s.setSocket connfd _).sockets g)
      by_cases hgc : g = connfd
      · rw [hgc, setSocket_self]
        exact ⟨(h.tracked connfd).whole, (h.tracked connfd).received⟩
      · rw [setSocket_of_ne s _ hgc]
        exact h.tracked g
    · exact fun j hj => Function.update_of_ne hj ..
    · exact fun g hg => setSocket_of_ne s _ hg
  · exact ⟨h, rfl, rfl, fun _ _ => rfl, fun _ _ => rfl⟩

/-- A handler removes the client or changes the stock table. -/
theorem runHandler_cases {cmd : Command} {r : Status × Text}
    (h : runHandler s cmd connfd i = some (s', r)) :
    s' = (removeClient s connfd i).1 ∨ ∃ root, s' = { s with root := root } := by
  unfold runHandler at h
  split at h
  · obtain ⟨p, -, hp⟩ := Option.bind_eq_some_iff.mp h
    exact Or.inr ⟨s.root, (Prod.mk.inj (Option.some.inj hp)).1.symm⟩
  · obtain ⟨x, -, h⟩ := Option.bind_eq_some_iff.mp h
    obtain ⟨y, -, h⟩ := Option.bind_eq_some_iff.mp h
    exact Or.inr ⟨_, (Prod.mk.inj (Option.some.inj h)).1.symm⟩
  · obtain ⟨x, -, h⟩ := Option.bind_eq_some_iff.mp h
    obtain ⟨y, -, h⟩ := Option.bind_eq_some_iff.mp h
    exact Or.inr ⟨_, (Prod.mk.inj (Option.some.inj h)).1.symm⟩
  · exact Or.inl (Prod.mk.inj (Option.some.inj h)).1.symm

theorem execute_cases {cmd : Command} {reply : Text}
    (h : execute s cmd connfd i = some (s', reply)) :
    s' = (removeClient s connfd i).1 ∨ ∃ root, s' = { s with root := root } := by
  obtain ⟨⟨s₁, st, result⟩, hrun, h⟩ := Option.bind_eq_some_iff.mp h
  obtain ⟨res, -, h⟩ := Option.bind_eq_some_iff.mp h
  obtain ⟨res', -, h⟩ := Option.bind_eq_some_iff.mp h
  rw [← (Prod.mk.inj (Option.some.inj h)).1]
  exact runHandler_cases hrun

theorem reply_cases {cmd : Command} {st : Status} (h : reply s cmd connfd i st = some s') :
    s' = (removeClient s connfd i).1 ∨ ∃ root, s' = { s with root := root } := by
  have hexec : (execute s cmd connfd i).map Prod.fst = some s' →
      s' = (removeClient s connfd i).1 ∨ ∃ root, s' = { s with root := root } := by
    intro heq
    obtain ⟨⟨s₁, text⟩, hcall, rfl⟩ := Option.map_eq_some_iff.mp heq
    exact execute_cases hcall
  cases st with
  | nocmd | invarg | nl => exact Or.inr ⟨s.root, (Option.some.inj h).symm⟩
  | success | error | notenougherr => exact hexec h

/-- A line is recorded and then handled. -/
theorem answer_cases {line : Line} {stack : Stack} (hrc : line.rc ≠ 0)
    (h : answer s connfd i line stack = some s') :
    let logged := s.setSocket connfd { s.sockets connfd with
      parsed := (s.sockets connfd).parsed ++ [(line.rc, line.bytes)] }
    s' = (removeClient logged connfd i).1 ∨ ∃ root, s' = { logged with root := root } := by
  intro logged
  rw [answer, if_pos hrc] at h
  obtain ⟨⟨st, cmd⟩, -, h⟩ := Option.bind_eq_some_iff.mp h
  obtain ⟨s₁, hreply, h⟩ := Option.bind_eq_some_iff.mp h
  obtain ⟨-, -, h⟩ := Option.bind_eq_some_iff.mp h
  rw [← Option.some.inj h]
  exact reply_cases hreply

theorem Tidy.root (h : Tidy s) (root : Stock) : Tidy { s with root := root } :=
  ⟨h.readers, h.listed, h.distinct, h.watched, h.tracked⟩

theorem OnlySlot.root (s : Server) (i : ℕ) (connfd : Int) (root : Stock) :
    OnlySlot s { s with root := root } i connfd :=
  ⟨rfl, rfl, fun _ _ => rfl, fun _ _ => rfl⟩

/-- Reading changes what is to be read on the socket. -/
theorem readRequest_socket {rio : Rio} {line : Line}
    (h : readRequest s connfd rio = some (line, s')) : ∃ sock : Socket,
      s' = s.setSocket connfd sock ∧ sock.isOpen = (s.sockets connfd).isOpen := by
  obtain ⟨read, -, h⟩ := Option.bind_eq_some_iff.mp h
  exact ⟨_, (Prod.mk.inj (Option.some.inj h)).2.symm, rfl⟩

/-- `rio_readlineb` on a client with one whole line takes the line. -/
theorem readRequest_line {l : Text} (hopen : (s.sockets connfd).isOpen = true)
    (hl : newline ∉ l) (hinbox : (s.sockets connfd).inbox = l ++ [newline])
    (hlen : (s.sockets connfd).inbox.length < maxline) :
    ∃ line, readRequest s connfd ⟨[]⟩ =
        some (line, s.setSocket connfd { s.sockets connfd with inbox := [] }) ∧
      line.rc = (s.sockets connfd).inbox.length ∧ line.bytes = (s.sockets connfd).inbox := by
  obtain ⟨o, hread, hleft⟩ := rioReadlineb_line hopen hl hinbox hlen
  refine ⟨⟨(s.sockets connfd).inbox.length, (s.sockets connfd).inbox, ⟨[]⟩, o⟩, ?_, rfl, rfl⟩
  have hpeer : ¬ (((s.sockets connfd).inbox.length : Int) < 0 ∧
      (s.sockets connfd).peer = .reset) := by omega
  simp only [readRequest, hread, hleft, if_neg hpeer, Option.bind_eq_bind, Option.bind_some]

theorem readRequest_eof (hopen : (s.sockets connfd).isOpen = true)
    (hinbox : (s.sockets connfd).inbox = []) (hpeer : (s.sockets connfd).peer = .closed) :
    ∃ line, readRequest s connfd ⟨[]⟩ = some (line, s) ∧ line.rc = 0 := by
  have hread := rioReadlineb_eof hopen hinbox hpeer
  have hsame : s.setSocket connfd { s.sockets connfd with inbox := [] } = s := by
    rw [← hinbox]
    simp only [Server.setSocket, Function.update_eq_self]
  refine ⟨⟨0, [], ⟨[]⟩, []⟩, ?_, rfl⟩
  simp only [readRequest, hread, leftover, List.flatMap_nil, lt_irrefl, false_and, if_false,
    hsame, Option.bind_eq_bind, Option.bind_some]

/-- Parsing and answering the line that was read keeps the pool tidy. -/
theorem answer_line {l : Text} {line : Line} {stack : Stack} (ht : Tidy s)
    (hi : s.pool.clientfd i = connfd) (hl : newline ∉ l)
    (hinbox : (s.sockets connfd).inbox = l ++ [newline])
    (hrc : line.rc = (s.sockets connfd).inbox.length)
    (hbytes : line.bytes = (s.sockets connfd).inbox)
    (h : answer (s.setSocket connfd { s.sockets connfd with inbox := [] }) connfd i line stack =
      some s') : Tidy s' ∧ OnlySlot s s' i connfd := by
  have hrc' : line.rc ≠ 0 := by
    rw [hrc, hinbox, List.length_append, List.length_singleton]
    omega
  have hcases := answer_cases hrc' h
  simp only [setSocket_self, setSocket_setSocket, hrc, hbytes] at hcases
  have hlogged : Tidy (s.setSocket connfd _) :=
    ht.setSocket ((ht.tracked connfd).parse hl hinbox) id
  have honly := OnlySlot.setSocket s i connfd { s.sockets connfd with
    inbox := []
    parsed := (s.sockets connfd).parsed ++
      [(((s.sockets connfd).inbox.length : Int), (s.sockets connfd).inbox)] }
  rcases hcases with rfl | ⟨root, rfl⟩
  · obtain ⟨htidy, hslot⟩ := hlogged.remove hi
    exact ⟨htidy, honly.trans hslot⟩
  · exact ⟨hlogged.root root, honly.trans (OnlySlot.root _ i connfd root)⟩

/-- Reading and answering a client that has sent one whole line or has closed. -/
theorem request_spec (ht : Tidy s) {stack : Stack}
    (hi : s.pool.clientfd i = connfd) (hopen : (s.sockets connfd).isOpen = true)
    (hline : WholeLine (s.sockets connfd))
    (h : (readRequest s connfd ⟨[]⟩).bind (fun r => answer r.2 connfd i r.1 stack) = some s') :
    Tidy s' ∧ OnlySlot s s' i connfd := by
  rcases hline with ⟨l, hl, hinbox, hlen⟩ | ⟨hinbox, hpeer⟩
  · obtain ⟨line, hread, hrc, hbytes⟩ := readRequest_line hopen hl hinbox hlen
    rw [hread, Option.bind_some] at h
    exact answer_line ht hi hl hinbox hrc hbytes h
  · obtain ⟨line, hread, hrc⟩ := readRequest_eof hopen hinbox hpeer
    rw [hread, Option.bind_some, answer, if_neg (not_not.mpr hrc), Option.some.injEq] at h
    rw [← h]
    exact ht.remove hi

theorem serveSlot_spec (ht : Tidy s) {stack : Stack}
    (hline : 0 < s.pool.clientfd i → s.pool.readySet (s.pool.clientfd i) = true →
      WholeLine (s.sockets (s.pool.clientfd i)))
    (h : serveSlot s i stack = some s') : Tidy s' ∧ OnlySlot s s' i (s.pool.clientfd i) := by
  by_cases hready : s.pool.clientfd i > 0 ∧ s.pool.readySet (s.pool.clientfd i) = true
  · have hcounted : Tidy { s with pool := { s.pool with nready := s.pool.nready - 1 } } :=
      ⟨ht.readers, ht.listed, ht.distinct, ht.watched, ht.tracked⟩
    simp only [serveSlot, if_pos hready, ht.readers i] at h
    obtain ⟨htidy, honly⟩ := request_spec hcounted rfl (ht.listed i hready.1).1
      (hline hready.1 hready.2) h
    exact ⟨htidy, honly.listenfd, honly.readySet, honly.clientfd, honly.sockets⟩
  · rw [serveSlot, if_neg hready, Option.some.injEq] at h
    rw [← h]
    exact ⟨ht, rfl, rfl, fun _ _ => rfl, fun _ _ => rfl⟩

/-- The loop keeps the pool tidy while the clients still to come have whole lines. -/
theorem writeLoop_spec (stack : ℕ → Stack) (left : ℕ) : ∀ (i : ℕ) (s : Server), Tidy s →
    (∀ j, i ≤ j → 0 < s.pool.clientfd j → s.pool.readySet (s.pool.clientfd j) = true →
      WholeLine (s.sockets (s.pool.clientfd j))) →
    writeLoop stack left i s = some s' → Tidy s' ∧ s'.listenfd = s.listenfd := by
  induction left with
  | zero =>
    intro i s ht _ h
    rw [writeLoop, Option.some.injEq] at h
    rw [← h]
    exact ⟨ht, rfl⟩
  | succ left ih =>
    intro i s ht hlines h
    rw [writeLoop] at h
    split at h
    · obtain ⟨s₁, hserve, h⟩ := Option.bind_eq_some_iff.mp h
      obtain ⟨ht₁, honly⟩ := serveSlot_spec ht (hlines i le_rfl) hserve
      obtain ⟨htidy, hlisten⟩ := ih (i + 1) s₁ ht₁ (by
        intro j hj hpos hready
        have hji : j ≠ i := by omega
        rw [honly.clientfd j hji] at hpos hready ⊢
        rw [honly.readySet] at hready
        have hne : s.pool.clientfd j ≠ s.pool.clientfd i := fun heq =>
          hji (ht.distinct j i hpos heq)
        rw [honly.sockets _ hne]
        exact hlines j (by omega) hpos hready) h
      exact ⟨htidy, hlisten.trans honly.listenfd⟩
    · rw [Option.some.injEq] at h
      rw [← h]
      exact ⟨ht, rfl⟩

end Slots

section Rounds

variable {s s' : Server} {r : Round}

/-- A new client takes a free slot. -/
theorem addClient_spec (ht : Tidy s) {connfd : Int} (hopen : (s.sockets connfd).isOpen = true)
    (hlisten : connfd ≠ s.listenfd) (hnew : ∀ j, 0 < s.pool.clientfd j → s.pool.clientfd j ≠ connfd)
    (h : addClient s connfd = some s') : Tidy s' ∧ s'.pool.readySet = s.pool.readySet ∧
      s'.sockets = s.sockets ∧ s'.listenfd = s.listenfd ∧
      ∀ j, s'.pool.clientfd j = connfd ∨ s'.pool.clientfd j = s.pool.clientfd j := by
  simp only [addClient, Option.bind_eq_bind, Option.bind_eq_some_iff] at h
  obtain ⟨i, -, readSet, hset, h⟩ := h
  have hset' : ∀ fd, readSet fd = true → fd = connfd ∨ s.pool.readSet fd = true := by
    intro fd hfd
    unfold fdSet at hset
    split at hset
    · rw [← Option.some.inj hset] at hfd
      by_cases heq : fd = connfd
      · exact Or.inl heq
      · rw [Function.update_of_ne heq] at hfd
        exact Or.inr hfd
    · cases hset
  rw [Option.some.injEq] at h
  subst h
  have hslot : ∀ j, Function.update s.pool.clientfd i connfd j = connfd ∧ j = i ∨
      Function.update s.pool.clientfd i connfd j = s.pool.clientfd j ∧ j ≠ i := by
    intro j
    by_cases hj : j = i
    · exact Or.inl ⟨by rw [hj, Function.update_self], hj⟩
    · exact Or.inr ⟨Function.update_of_ne hj .., hj⟩
  refine ⟨⟨?_, ?_, ?_, ?_, ht.tracked⟩, rfl, rfl, rfl, ?_⟩
  · intro j
    change Function.update s.pool.clientrio i rioReadinitb j = ⟨[]⟩
    by_cases hj : j = i
    · rw [hj, Function.update_self]
      rfl
    · rw [Function.update_of_ne hj]
      exact ht.readers j
  · intro j hj
    change 0 < Function.update s.pool.clientfd i connfd j at hj
    change (s.sockets (Function.update s.pool.clientfd i connfd j)).isOpen = true ∧
      Function.update s.pool.clientfd i connfd j ≠ s.listenfd
    rcases hslot j with ⟨heq, -⟩ | ⟨heq, -⟩
    · rw [heq]
      exact ⟨hopen, hlisten⟩
    · rw [heq] at hj ⊢
      exact ht.listed j hj
  · intro j k hj heq
    change 0 < Function.update s.pool.clientfd i connfd j at hj
    change Function.update s.pool.clientfd i connfd j = Function.update s.pool.clientfd i connfd k
      at heq
    rcases hslot j with ⟨hj', hji⟩ | ⟨hj', hji⟩ <;> rcases hslot k with ⟨hk', hki⟩ | ⟨hk', hki⟩
    · exact hji.trans hki.symm
    · rw [hj'] at hj heq
      rw [hk'] at heq
      exact absurd heq.symm (hnew k (heq ▸ hj))
    · rw [hj'] at hj heq
      rw [hk'] at heq
      exact absurd heq (hnew j hj)
    · rw [hj'] at hj heq
      rw [hk'] at heq
      exact ht.distinct j k hj heq
  · intro fd hfd
    rcases hset' fd hfd with rfl | hfd
    · exact Or.inr hopen
    · exact ht.watched fd hfd
  · intro j
    rcases hslot j with ⟨heq, -⟩ | ⟨heq, -⟩
    · exact Or.inl heq
    · exact Or.inr heq

/-- `see_pool` keeps the pool tidy and adds no client that is ready at once. -/
theorem seePool_spec (ht : Tidy s)
    (hready : ∀ fd, r.ready fd = true → s.pool.readSet fd = true)
    (haccept : r.ready s.listenfd = true →
      r.connfd ≠ s.listenfd ∧ (s.sockets r.connfd).isOpen = false)
    (h : seePool s r = some s') : Tidy s' ∧ s'.pool.readySet = r.ready ∧
      s'.listenfd = s.listenfd ∧
      ∀ j, 0 < s'.pool.clientfd j → r.ready (s'.pool.clientfd j) = true →
        s'.sockets (s'.pool.clientfd j) = s.sockets (s'.pool.clientfd j) := by
  have hselected : Tidy { s with pool :=
      { s.pool with readySet := r.ready, nready := r.nready } } :=
    ⟨ht.readers, ht.listed, ht.distinct, ht.watched, ht.tracked⟩
  unfold seePool at h
  by_cases hlisten : r.ready s.listenfd = true
  · obtain ⟨hne, hclosed⟩ := haccept hlisten
    have hnew : ∀ j, 0 < s.pool.clientfd j → s.pool.clientfd j ≠ r.connfd := by
      intro j hj heq
      have hopen := (ht.listed j hj).1
      rw [heq, hclosed] at hopen
      cases hopen
    have hquiet : r.ready r.connfd ≠ true := by
      intro hr
      rcases ht.watched _ (hready _ hr) with heq | hopen
      · exact hne heq
      · rw [hclosed] at hopen
        cases hopen
    have haccepted : Tidy (Server.setSocket { s with pool :=
        { s.pool with readySet := r.ready, nready := r.nready } } r.connfd
          ⟨r.arrived, .connected, true, r.arrived, []⟩) :=
      hselected.setSocket ⟨fun _ hq => absurd hq List.not_mem_nil, rfl⟩ fun _ => rfl
    rw [if_pos hlisten] at h
    obtain ⟨htidy, hset, hsocks, hlist, hslots⟩ :=
      addClient_spec haccepted (by rw [setSocket_self]) hne hnew h
    refine ⟨htidy, hset, hlist, ?_⟩
    intro j hj hr
    have hjr : s'.pool.clientfd j ≠ r.connfd := fun heq => hquiet (heq ▸ hr)
    rw [hsocks, setSocket_of_ne _ _ hjr]
  · simp only [if_neg hlisten, Option.some.injEq] at h
    subst h
    exact ⟨hselected, rfl, rfl, fun _ _ _ => rfl⟩

/-- A round in which every client that is read has a whole line. -/
theorem round_spec (ht : Tidy s)
    (hready : ∀ fd, r.ready fd = true → s.pool.readSet fd = true)
    (haccept : r.ready s.listenfd = true →
      r.connfd ≠ s.listenfd ∧ (s.sockets r.connfd).isOpen = false)
    (hlines : ∀ fd, r.ready fd = true → fd ≠ s.listenfd → WholeLine (s.sockets fd))
    (h : ConnectionPool.round s r = some s') : Tidy s' := by
  obtain ⟨s₁, hsee, hwrite⟩ := Option.bind_eq_some_iff.mp h
  obtain ⟨ht₁, hset, hlisten, hsocks⟩ := seePool_spec ht hready haccept hsee
  refine (writeLoop_spec r.stack _ 0 s₁ ht₁ ?_ hwrite).1
  intro j _ hpos hr
  rw [hset] at hr
  rw [hsocks j hpos hr]
  exact hlines _ hr fun heq => (ht₁.listed j hpos).2 (heq.trans hlisten.symm)

end Rounds

theorem tidy_step {s s' : Server} {a : Action} (ht : Tidy s) (hstep : Step s a s')
    (hlines : WholeLines s a) : Tidy s' := by
  cases hstep with
  | arrive hopen hpeer => exact ht.setSocket ((ht.tracked _).arrive _) id
  | hangUp | reset => exact ht.setSocket ⟨(ht.tracked _).whole, (ht.tracked _).received⟩ id
  | round hselect haccept hcall =>
    exact round_spec ht (fun fd hr => (hselect fd hr).1) haccept hlines hcall

theorem tidy_started {s : Server} (hs : Started s) : Tidy s := by
  obtain ⟨hpool, hsockets⟩ := hs
  have hfd : ∀ i, s.pool.clientfd i = -1 := fun i => by rw [hpool]; rfl
  refine ⟨?_, ?_, ?_, ?_, ?_⟩
  · intro i
    rw [hpool]
    rfl
  · intro i hi
    rw [hfd] at hi
    omega
  · intro i j hi
    rw [hfd] at hi
    omega
  · intro fd h
    rw [hpool] at h
    exact Or.inl (of_decide_eq_true h)
  · intro fd
    rw [hsockets]
    exact ⟨fun _ hr => absurd hr List.not_mem_nil, rfl⟩

/-- While every read finds a whole line, the requests of each client are the
lines of its stream. -/
theorem framed_of_wholeLines {s : Server} (hs : (runs.guarded WholeLines).Reachable s) (fd : Int) :
    Framed (s.sockets fd) := by
  have ht : Tidy s := by
    apply hs.invariant
    · intro t h
      exact tidy_started h
    · intro t a t' h hstep
      exact tidy_step h hstep.1 hstep.2
  exact (ht.tracked fd).framed

def startedServer : Server := ⟨3, initPool 3, fun _ => ⟨[], .connected, false, [], []⟩, .null⟩

def clearStack : Stack := ⟨[], clearCommand, .null, by decide⟩

def oneReady (fd : Int) : Round :=
  ⟨fun g => g = fd, 1, 4, [], fun _ => clearStack⟩

def afterRound (s : Server) (r : Round) : Server := (ConnectionPool.round s r).getD s

-- Only the kernel is to run these rounds.
attribute [irreducible] afterRound

theorem round_eq_afterRound {s : Server} {r : Round}
    (h : (ConnectionPool.round s r).isSome = true) :
    ConnectionPool.round s r = some (afterRound s r) := by
  obtain ⟨t, ht⟩ := Option.isSome_iff_exists.mp h
  unfold afterRound
  rw [ht, Option.getD_some]

def arrived (piece : Text) : Server :=
  let s := afterRound startedServer (oneReady 3)
  s.setSocket 4 { s.sockets 4 with
    inbox := (s.sockets 4).inbox ++ piece
    received := (s.sockets 4).received ++ piece }

theorem arrived_reachable (piece : Text) :
    (runs.guarded WholeLines).Reachable (arrived piece) := by
  have haccepted : (runs.guarded WholeLines).Reachable (afterRound startedServer (oneReady 3)) := by
    refine .step (.initial ⟨rfl, fun _ => rfl⟩)
      ⟨.round ?_ ?_ (round_eq_afterRound (by decide +kernel)), ?_⟩
    · intro fd hr
      obtain rfl := of_decide_eq_true hr
      exact ⟨rfl, Or.inl rfl⟩
    · exact fun _ => ⟨by decide, rfl⟩
    · intro fd hr hne
      obtain rfl := of_decide_eq_true hr
      exact absurd rfl hne
  exact .step haccepted ⟨.arrive (by decide +kernel) (by decide +kernel), trivial⟩

/-- The round that reads descriptor 4. -/
theorem read_step {piece : Text} (hne : piece ≠ [])
    (hcall : (ConnectionPool.round (arrived piece) (oneReady 4)).isSome = true) :
    Step (arrived piece) (.round (oneReady 4)) (afterRound (arrived piece) (oneReady 4)) := by
  have hinbox : ((arrived piece).sockets 4).inbox = piece := by
    rw [arrived, setSocket_self]
    have hempty : ((afterRound startedServer (oneReady 3)).sockets 4).inbox = [] := by
      decide +kernel
    rw [hempty, List.nil_append]
  refine .round ?_ ?_ (round_eq_afterRound hcall)
  · intro fd hr
    obtain rfl := of_decide_eq_true hr
    refine ⟨?_, Or.inr (Or.inl (by rwa [hinbox]))⟩
    change (afterRound startedServer (oneReady 3)).pool.readSet 4 = true
    decide +kernel
  · intro hr
    have hlisten : (arrived piece).listenfd = 3 := by
      change (afterRound startedServer (oneReady 3)).listenfd = 3
      decide +kernel
    rw [hlisten] at hr
    exact absurd hr (by decide)

/-- One line in one piece is one request. -/
theorem framed_one_line :
    ((afterRound (arrived (ascii "show\n")) (oneReady 4)).sockets 4).parsed =
      requests ((afterRound (arrived (ascii "show\n")) (oneReady 4)).sockets 4).received := by
  have hstep := read_step (show ascii "show\n" ≠ [] by decide) (by decide +kernel)
  have hguard : WholeLines (arrived (ascii "show\n")) (.round (oneReady 4)) := by
    intro fd hr _
    obtain rfl := of_decide_eq_true hr
    exact Or.inl ⟨ascii "show", by decide +kernel, by decide +kernel, by decide +kernel⟩
  have hs := (arrived_reachable (ascii "show\n")).step ⟨hstep, hguard⟩
  exact (framed_of_wholeLines hs 4).2 (by decide +kernel)

/-- Of two lines in one piece the second is never parsed, though it has been read. -/
theorem framed_two_lines : ∃ s, runs.Reachable s ∧ (s.sockets 4).inbox = [] ∧
    (s.sockets 4).parsed = [(5, ascii "show\n")] ∧
    (s.sockets 4).received = ascii "show\nshow\n" ∧ ¬ Framed (s.sockets 4) := by
  have hstep := read_step (show ascii "show\nshow\n" ≠ [] by decide) (by decide +kernel)
  have hinbox : ((afterRound (arrived (ascii "show\nshow\n")) (oneReady 4)).sockets 4).inbox =
    [] := by decide +kernel
  refine ⟨_, .step (arrived_reachable (ascii "show\nshow\n")).of_guarded hstep, hinbox,
    by decide +kernel, by decide +kernel, ?_⟩
  intro hframed
  exact absurd (hframed.2 hinbox) (by decide +kernel)

end SystemSoftware.PoolRuns
