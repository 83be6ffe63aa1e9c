import SystemSoftware.PoolAccounts
import SystemSoftware.SessionService

/-!
The scan of `write_pool` against one over all slots. `nready` counts at least the
ready clients in the slots still to come, as `add_client` takes off the listening
descriptor and each slot that is served takes off its own. So where the scan stops
no ready client is left, whoever has been added or removed before. All of them are
read unless one is answered in a way that the server does not survive.
-/
namespace SystemSoftware.PoolScan

open DecimalText StockTree RequestParser RioBuffer ConnectionPool PoolRuns PoolAccounts
open SessionService (showHead statusText_short show_reply)

def slotReads (s : Server) (i : ℕ) : List Int :=
  let connfd := s.pool.clientfd i
  if connfd > 0 ∧ s.pool.readySet connfd = true then [connfd] else []

/-- A loop over `left` slots while `go` holds: the descriptors that it reads from, one
after the other, and the server behind it. -/
def scan (go : Server → Bool) (stack : ℕ → Stack) :
    ℕ → ℕ → Server → List Int × Option Server
  | 0, _, s => ([], some s)
  | left + 1, i, s =>
    if go s then
      match serveSlot s i (stack i) with
      | some s' =>
        let rest := scan go stack left (i + 1) s'
        (slotReads s i ++ rest.1, rest.2)
      | none => (slotReads s i, none)
    else ([], some s)

def readyLeft (s : Server) : Bool := s.pool.nready > 0

/-- `write_pool` with the descriptors that it reads from. -/
def stoppingScan (s : Server) (stack : ℕ → Stack) : List Int × Option Server :=
  scan readyLeft stack (s.pool.maxi + 1).toNat 0 s

def fullScan (s : Server) (stack : ℕ → Stack) : List Int × Option Server :=
  scan (fun _ => true) stack fdSetsize 0 s

def roundWith (write : Server → (ℕ → Stack) → List Int × Option Server) (s : Server) (r : Round) :
    List Int × Option Server :=
  match seePool s r with
  | some s => write s r.stack
  | none => ([], none)

structure Pooled (s : Server) : Prop where
  positive : ∀ fd, Entry s.pool.clientfd fd → 0 < fd
  distinct : ∀ i j, 0 ≤ s.pool.clientfd i → s.pool.clientfd i = s.pool.clientfd j → i = j
  watched : ∀ fd, Entry s.pool.clientfd fd → s.pool.readSet fd = true
  index : ∀ i, 0 ≤ s.pool.clientfd i → i < fdSetsize ∧ (i : Int) ≤ s.pool.maxi
  apart : ¬ Entry s.pool.clientfd s.listenfd

/-- What `select` may report: descriptors of the set that are open, and how many. -/
structure Selected (s : Server) (r : Round) : Prop where
  watched : ∀ fd, r.ready fd = true → s.pool.readSet fd = true
  listed : ∀ fd, r.ready fd = true → fd = s.listenfd ∨ (s.sockets fd).isOpen = true
  bounds : ∀ fd, r.ready fd = true → 0 ≤ fd ∧ fd < fdSetsize
  counted : r.nready = ((Finset.range fdSetsize).filter fun fd : ℕ => r.ready fd = true).card

/-- The main loop keeps the invariant while every `accept` succeeds, on descriptors other
than 0. -/
theorem pooled_of_reachable {w : Watched} (hw : PoolAccounts.runs.Reachable w)
    (haccepted : w.refused = 0) (hnonzero : ∀ i, w.server.pool.clientfd i ≠ 0) :
    Pooled w.server := by
  have h := reachable_accounted hw
  refine ⟨?_, h.distinct, ?_, h.index, h.apart⟩
  · rintro fd ⟨hpos, i, rfl⟩
    exact lt_of_le_of_ne hpos (hnonzero i).symm
  · exact fun fd hentry => (h.watched haccepted fd).mpr (Or.inr hentry)

/-- The server survives a decoded request: the reply fits `res`, and `free_args` frees live
memory. -/
structure Survived (root : Stock) (args : ArgsPtr) (rc : Int) (st : Status) (cmd : Command) :
    Prop where
  fits : st = .success → cmd.fp = .show → showHead.length + (text root).length < maxline
  freed : Freeable (if rc = 1 then args else .live) cmd.argc

/-- What is read at slot `i` is the end of the stream, or a request that is scanned inside the
buffer and survived. -/
def Answerable (s : Server) (i : ℕ) (stack : Stack) : Prop :=
  ∀ line, rioReadlineb (s.pool.clientrio i) maxline (readOutcomes (s.sockets (s.pool.clientfd i))) =
      some line → line.rc ≠ 0 →
    ∃ st cmd, parser (storeLine stack.buf line) line.rc stack.cmd = some (st, cmd) ∧
      Survived s.root stack.args line.rc st cmd

/-- Of the slots all but the last are answered, each in the state that those before it leave. -/
def Lasts (stack : ℕ → Stack) : List ℕ → Server → Prop
  | i :: j :: slots, s => Answerable s i (stack i) ∧
    ∀ s', serveSlot s i (stack i) = some s' → Lasts stack (j :: slots) s'
  | _, _ => True

/-- A connection that is accepted finds a free slot and fits the descriptor set. -/
def Admits (s : Server) (r : Round) : Prop :=
  r.ready s.listenfd = true →
    0 ≤ r.connfd ∧ r.connfd < fdSetsize ∧ ∃ i < fdSetsize, s.pool.clientfd i < 0

section Answers

variable {s s' : Server} {i : ℕ} {connfd : Int} {line : Line} {stack : Stack}

def Ends (outcomes : List Outcome) : Prop := .eof ∈ outcomes ∨ .error ∈ outcomes

theorem rioFill_ends {o : List Outcome} (h : Ends o) :
    ∃ cnt unread o', rioFill o = some (cnt, unread, o') ∧ (0 < cnt → Ends o') := by
  induction o with
  | nil => exact absurd h (by simp [Ends])
  | cons x o ih =>
    cases x with
    | eintr => exact ih (by simpa [Ends] using h)
    | data c r => exact ⟨_, _, _, rfl, fun _ => by simpa [Ends] using h⟩
    | eof => exact ⟨_, _, _, rfl, fun hpos => absurd hpos (by decide)⟩
    | error => exact ⟨_, _, _, rfl, fun hpos => absurd hpos (by decide)⟩

theorem rioRead_ends (rp : Rio) {o : List Outcome} (h : Ends o) :
    ∃ rc c rp' o', rioRead rp 1 o = some (rc, c, rp', o') ∧ (rc = 1 → Ends o') := by
  rw [rioRead]
  obtain ⟨unread⟩ := rp
  cases unread with
  | nil =>
    obtain ⟨cnt, unread, o', hfill, hends⟩ := rioFill_ends h
    rw [if_pos rfl, hfill]
    simp only [Option.bind_eq_bind, Option.bind_some]
    split
    · next hle => exact ⟨_, _, _, _, rfl, fun hone => absurd hone (by omega)⟩
    · next hlt => exact ⟨_, _, _, _, rfl, fun _ => hends (by omega)⟩
  | cons c u =>
    simp only [List.cons_ne_nil, if_false, Option.bind_eq_bind, Option.bind_some]
    split
    · exact ⟨_, _, _, _, rfl, fun _ => h⟩
    · exact ⟨_, _, _, _, rfl, fun _ => h⟩

theorem readlineLoop_ends (left : ℕ) : ∀ (n : ℕ) (bytes : Text) (rp : Rio) (o : List Outcome),
    Ends o → (readlineLoop left n bytes rp o).isSome = true := by
  induction left with
  | zero => exact fun _ _ _ _ _ => rfl
  | succ left ih =>
    intro n bytes rp o h
    obtain ⟨rc, c, rp', o', hread, hends⟩ := rioRead_ends rp h
    simp only [readlineLoop, hread, Option.bind_eq_bind, Option.bind_some]
    split
    · next hone =>
      split
      · rfl
      · exact ih _ _ _ _ (hends hone)
    · split
      · split <;> rfl
      · rfl

/-- A socket does not block. -/
theorem rioReadlineb_isSome (sock : Socket) (rio : Rio) :
    ∃ line, rioReadlineb rio maxline (readOutcomes sock) = some line := by
  have hends : Ends (readOutcomes sock) := by
    rw [readOutcomes]
    split
    · split
      · exact Or.inl (List.mem_append_right _ (List.mem_singleton_self _))
      · exact Or.inr (List.mem_append_right _ (List.mem_singleton_self _))
    · exact Or.inr List.mem_cons_self
  exact Option.isSome_iff_exists.mp (readlineLoop_ends (maxline - 1) 1 [] rio _ hends)

/-- A command of the list is executed, unless the table that `show` sends does not fit. -/
theorem execute_isSome_iff {cmd : Command} (hsel : RequestParser.Selected cmd) :
    (execute s cmd connfd i).isSome = true ↔
      (cmd.fp = .show → showHead.length + (text s.root).length < maxline) := by
  have hplain : ∀ (s' : Server) (st : Status), cmd.name.length ≤ 4 →
      ((statusText cmd.name st).bind fun res => (strcat res []).bind fun res =>
        some (s', res)).isSome = true := by
    intro s' st hname
    obtain ⟨res, hres, hlen⟩ := statusText_short hname st
    rw [hres, Option.bind_some, strcat_of_lt (by simpa using hlen), Option.bind_some]
    rfl
  rcases hsel.cases with ⟨hfp, hname⟩ | ⟨hfp, hflag, hname⟩ | ⟨hfp, hname⟩
  · rw [hfp, eq_self, forall_const, ← show_reply s.root, execute, runHandler, hfp, hname]
    cases hprint : printToBuf s.root [] with
    | none => rfl
    | some r =>
      simp only [Option.bind_eq_bind, Option.bind_some]
      cases statusText (ascii "show") r.1 with
      | none => rfl
      | some head =>
        simp only [Option.bind_some]
        cases strcat head r.2 <;> rfl
  · obtain ⟨a, b, ha, hb⟩ := hsel.args hflag
    have hrun : ∃ s' st, runHandler s cmd connfd i = some (s', st, []) := by
      rcases hfp with hfp | hfp
      · exact ⟨_, _, by simp only [runHandler, hfp, ha, hb, Option.bind_eq_bind,
          Option.bind_some]; rfl⟩
      · exact ⟨_, _, by simp only [runHandler, hfp, ha, hb, Option.bind_eq_bind,
          Option.bind_some]; rfl⟩
    obtain ⟨s', st, hrun⟩ := hrun
    have hshow : cmd.fp ≠ .show := by
      rcases hfp with hfp | hfp <;> rw [hfp] <;> decide
    rw [execute, hrun]
    exact iff_of_true (hplain s' st hname) fun h => absurd h hshow
  · have hshow : cmd.fp ≠ .show := by
      rw [hfp]
      decide
    refine iff_of_true ?_ fun h => absurd h hshow
    rw [execute, runHandler, hfp]
    refine hplain _ _ ?_
    rw [hname]
    decide

theorem reply_isSome_iff (s : Server) (connfd : Int) (i : ℕ) {cmd : Command} {st : Status}
    (hst : Decoded st cmd) :
    (reply s cmd connfd i st).isSome = true ↔
      (st = .success → cmd.fp = .show → showHead.length + (text s.root).length < maxline) := by
  rcases hst with rfl | rfl | rfl | ⟨rfl, hsel⟩
  · exact iff_of_true rfl nofun
  · exact iff_of_true rfl nofun
  · exact iff_of_true rfl nofun
  · change ((execute s cmd connfd i).map Prod.fst).isSome = true ↔ _
    rw [Option.isSome_map, execute_isSome_iff hsel]
    exact ⟨fun h _ => h, fun h => h rfl⟩

theorem answer_isSome_iff (hrc : line.rc ≠ 0) :
    (answer s connfd i line stack).isSome = true ↔
      ∃ st cmd, parser (storeLine stack.buf line) line.rc stack.cmd = some (st, cmd) ∧
        Survived s.root stack.args line.rc st cmd := by
  rw [answer, if_pos hrc]
  cases hparse : parser (storeLine stack.buf line) line.rc stack.cmd with
  | none =>
    refine iff_of_false Bool.false_ne_true fun h => ?_
    obtain ⟨_, _, hsome, -⟩ := h
    cases hsome
  | some r =>
    obtain ⟨st, cmd⟩ := r
    simp only [Option.bind_eq_bind, Option.bind_some, Option.some.injEq, Prod.mk.injEq]
    have hreply := reply_isSome_iff (s.setSocket connfd { s.sockets connfd with
      parsed := (s.sockets connfd).parsed ++ [(line.rc, line.bytes)] }) connfd i
      (parser_decoded hparse)
    have hmeans : (∃ st' cmd', (st = st' ∧ cmd = cmd') ∧
        Survived s.root stack.args line.rc st' cmd') ↔
        Survived s.root stack.args line.rc st cmd := by
      refine ⟨fun h => ?_, fun h => ⟨st, cmd, ⟨rfl, rfl⟩, h⟩⟩
      obtain ⟨_, _, ⟨rfl, rfl⟩, hsurvived⟩ := h
      exact hsurvived
    rw [hmeans]
    cases hsent : reply (s.setSocket connfd { s.sockets connfd with
        parsed := (s.sockets connfd).parsed ++ [(line.rc, line.bytes)] }) cmd connfd i st with
    | none =>
      rw [hsent] at hreply
      exact iff_of_false Bool.false_ne_true fun h => by cases hreply.mpr h.fits
    | some s' =>
      rw [hsent] at hreply
      rw [Option.bind_some, freeArgs]
      by_cases hfree : Freeable (if line.rc = 1 then stack.args else .live) cmd.argc
      · rw [if_pos hfree]
        exact iff_of_true rfl ⟨hreply.mp rfl, hfree⟩
      · rw [if_neg hfree]
        exact iff_of_false Bool.false_ne_true fun h => hfree h.freed

end Answers

section Scans

variable {s s' : Server} {i left : ℕ} {go : Server → Bool} {stack : ℕ → Stack}

/-- The descriptors that the iterations over `left` slots read from, as far as the
server stands now. -/
def readyFrom (s : Server) (left i : ℕ) : List Int := (List.range' i left).flatMap (slotReads s)

theorem readyFrom_succ (s : Server) (left i : ℕ) :
    readyFrom s (left + 1) i = slotReads s i ++ readyFrom s left (i + 1) := by
  rw [readyFrom, List.range'_succ, List.flatMap_cons, readyFrom]

theorem readyLeft_iff : readyLeft s = true ↔ s.pool.nready > 0 := decide_eq_true_iff

theorem slotReads_congr (hready : s'.pool.readySet = s.pool.readySet)
    (hfd : s'.pool.clientfd i = s.pool.clientfd i) : slotReads s' i = slotReads s i := by
  rw [slotReads, slotReads, hready, hfd]

theorem removeClient_pool (s : Server) (connfd : Int) (i : ℕ) :
    (removeClient s connfd i).1.pool.nready = s.pool.nready ∧
      (removeClient s connfd i).1.pool.readySet = s.pool.readySet ∧
      ∀ j, j ≠ i → (removeClient s connfd i).1.pool.clientfd j = s.pool.clientfd j := by
  unfold removeClient
  split
  · exact ⟨rfl, rfl, fun j hj => Function.update_of_ne hj ..⟩
  · exact ⟨rfl, rfl, fun _ _ => rfl⟩

/-- Answering a client changes no slot but its own, and counts nothing. -/
theorem answer_pool {connfd : Int} {line : Line} {stack : Stack}
    (h : answer s connfd i line stack = some s') :
    s'.pool.nready = s.pool.nready ∧ s'.pool.readySet = s.pool.readySet ∧
      ∀ j, j ≠ i → s'.pool.clientfd j = s.pool.clientfd j := by
  by_cases hrc : line.rc ≠ 0
  · rcases answer_cases hrc h with rfl | ⟨root, rfl⟩
    · exact removeClient_pool _ connfd i
    · exact ⟨rfl, rfl, fun _ _ => rfl⟩
  · rw [answer, if_neg hrc, Option.some.injEq] at h
    rw [← h]
    exact removeClient_pool s connfd i

theorem serveSlot_pool {stack : Stack} (h : serveSlot s i stack = some s') :
    s'.pool.nready = s.pool.nready - (slotReads s i).length ∧
      s'.pool.readySet = s.pool.readySet ∧
      ∀ j, j ≠ i → s'.pool.clientfd j = s.pool.clientfd j := by
  by_cases hready : s.pool.clientfd i > 0 ∧ s.pool.readySet (s.pool.clientfd i) = true
  · simp only [serveSlot, if_pos hready, Option.bind_eq_bind, Option.bind_eq_some_iff] at h
    obtain ⟨⟨line, s₁⟩, hread, hanswer⟩ := h
    obtain ⟨sock, rfl, -⟩ := readRequest_socket hread
    rw [slotReads, if_pos hready]
    exact answer_pool hanswer
  · rw [serveSlot, if_neg hready, Option.some.injEq] at h
    rw [← h, slotReads, if_neg hready]
    exact ⟨(Int.sub_zero _).symm, rfl, fun _ _ => rfl⟩

theorem slotReads_ne_nil : slotReads s i ≠ [] ↔
    s.pool.clientfd i > 0 ∧ s.pool.readySet (s.pool.clientfd i) = true := by
  rw [slotReads]
  split
  · next hready => exact iff_of_true (List.cons_ne_nil _ _) hready
  · next hidle => exact iff_of_false (not_not.mpr rfl) hidle

theorem serveSlot_idle {stack : Stack} (h : slotReads s i = []) :
    serveSlot s i stack = some s := by
  have hidle := mt slotReads_ne_nil.mpr (not_not.mpr h)
  rw [serveSlot, if_neg hidle]

/-- An iteration over a ready slot returns exactly if what it reads is answerable. -/
theorem serveSlot_isSome_iff (hready : slotReads s i ≠ []) (stack : Stack) :
    (serveSlot s i stack).isSome = true ↔ Answerable s i stack := by
  obtain ⟨line, hline⟩ :=
    rioReadlineb_isSome (s.sockets (s.pool.clientfd i)) (s.pool.clientrio i)
  have hmeans : Answerable s i stack ↔ (line.rc ≠ 0 → ∃ st cmd,
      parser (storeLine stack.buf line) line.rc stack.cmd = some (st, cmd) ∧
        Survived s.root stack.args line.rc st cmd) :=
    ⟨fun h => h line hline, fun h line' hline' => Option.some.inj (hline.symm.trans hline') ▸ h⟩
  rw [hmeans, serveSlot, if_pos (slotReads_ne_nil.mp hready)]
  simp only [readRequest, hline, Option.bind_eq_bind, Option.bind_some]
  by_cases hrc : line.rc = 0
  · rw [answer, if_neg (not_not.mpr hrc)]
    exact iff_of_true rfl fun h => absurd hrc h
  · rw [answer_isSome_iff hrc]
    exact ⟨fun h _ => h, fun h => h hrc⟩

/-- The slots behind the one that is served stay as they are. -/
theorem readyFrom_serveSlot {stack : Stack} (h : serveSlot s i stack = some s') (left : ℕ) :
    readyFrom s' left (i + 1) = readyFrom s left (i + 1) := by
  obtain ⟨-, hset, hfd⟩ := serveSlot_pool h
  refine List.flatMap_congr fun j hj => slotReads_congr hset (hfd j ?_)
  have hle := (List.mem_range'_1.mp hj).1
  omega

/-- A scan over slots that are not ready does nothing. -/
theorem scan_idle (h : readyFrom s left i = []) : scan go stack left i s = ([], some s) := by
  induction left generalizing i with
  | zero => rfl
  | succ left ih =>
    rw [readyFrom_succ, List.append_eq_nil_iff] at h
    have hready : ¬ (s.pool.clientfd i > 0 ∧ s.pool.readySet (s.pool.clientfd i) = true) := by
      intro hready
      rw [slotReads, if_pos hready] at h
      exact List.cons_ne_nil _ _ h.1
    rw [scan]
    split
    · simp only [serveSlot, if_neg hready, ih h.2, h.1, List.append_nil]
    · rfl

theorem readyFrom_nil (h : ∀ j, i ≤ j → slotReads s j = []) (left : ℕ) :
    readyFrom s left i = [] :=
  List.flatMap_eq_nil_iff.mpr fun j hj => h j (List.mem_range'_1.mp hj).1

/-- Where `nready` counts the ready clients still to come, it does not stop the scan
before the last of them. -/
theorem scan_stops : ∀ {left all i : ℕ} {s : Server},
    ((readyFrom s all i).length : Int) ≤ s.pool.nready →
    (∀ j, i + left ≤ j → slotReads s j = []) → (∀ j, i + all ≤ j → slotReads s j = []) →
    scan readyLeft stack left i s = scan (fun _ => true) stack all i s := by
  intro left
  induction left with
  | zero =>
    intro all i s _ hleft _
    exact (scan_idle (readyFrom_nil hleft all)).symm
  | succ left ih =>
    intro all i s hcount hleft hall
    cases all with
    | zero =>
      exact scan_idle (readyFrom_nil hall _)
    | succ all =>
      by_cases hgo : readyLeft s = true
      · simp only [scan, if_pos hgo, if_true]
        cases hserve : serveSlot s i (stack i) with
        | none => rfl
        | some s' =>
          obtain ⟨hnready, hset, hfd⟩ := serveSlot_pool hserve
          have hrest : ∀ k, (∀ j, i + (k + 1) ≤ j → slotReads s j = []) →
              ∀ j, i + 1 + k ≤ j → slotReads s' j = [] := by
            intro k h j hj
            rw [slotReads_congr hset (hfd j (by omega))]
            exact h j (by omega)
          rw [readyFrom_succ, List.length_append] at hcount
          have hcount' : ((readyFrom s' all (i + 1)).length : Int) ≤ s'.pool.nready := by
            rw [readyFrom_serveSlot hserve]
            omega
          simp only [ih hcount' (hrest left hleft) (hrest all hall)]
      · have hnone : readyFrom s (all + 1) i = [] := by
          have hnready : ¬ s.pool.nready > 0 := fun h => hgo (readyLeft_iff.mpr h)
          exact List.length_eq_zero_iff.mp (by omega)
        rw [scan_idle hnone, scan, if_neg hgo]

/-- The scan of all slots reads from the clients that are ready, one after the other. -/
theorem scan_prefix (stack : ℕ → Stack) : ∀ (left i : ℕ) (s : Server),
    (scan (fun _ => true) stack left i s).1 <+: readyFrom s left i := by
  intro left
  induction left with
  | zero => exact fun _ _ => List.prefix_refl _
  | succ left ih =>
    intro i s
    rw [readyFrom_succ, scan, if_pos rfl]
    cases hserve : serveSlot s i (stack i) with
    | none => exact List.prefix_append _ _
    | some s' =>
      have hfirst := ih (i + 1) s'
      rw [readyFrom_serveSlot hserve] at hfirst
      exact (List.prefix_append_right_inj _).mpr hfirst

/-- The slots among `left` that are ready, as far as the server stands now. -/
def readySlots (s : Server) (left i : ℕ) : List ℕ :=
  (List.range' i left).filter fun j => slotReads s j ≠ []

theorem readySlots_succ (s : Server) (left i : ℕ) : readySlots s (left + 1) i =
    if slotReads s i ≠ [] then i :: readySlots s left (i + 1) else readySlots s left (i + 1) := by
  rw [readySlots, List.range'_succ, List.filter_cons, readySlots]
  simp only [decide_eq_true_eq]

theorem readySlots_congr (h : ∀ j, slotReads s' j = slotReads s j) (left i : ℕ) :
    readySlots s' left i = readySlots s left i :=
  List.filter_congr fun j _ => by rw [h]

theorem readySlots_serveSlot {stack : Stack} (h : serveSlot s i stack = some s') (left : ℕ) :
    readySlots s' left (i + 1) = readySlots s left (i + 1) := by
  obtain ⟨-, hset, hfd⟩ := serveSlot_pool h
  refine List.filter_congr fun j hj => ?_
  have hle := (List.mem_range'_1.mp hj).1
  rw [slotReads_congr hset (hfd j (by omega))]

theorem readyFrom_eq_nil_iff (s : Server) (left i : ℕ) :
    readyFrom s left i = [] ↔ readySlots s left i = [] := by
  rw [readyFrom, readySlots, List.flatMap_eq_nil_iff, List.filter_eq_nil_iff]
  simp only [decide_eq_true_eq, not_not]

/-- The scan of all slots reads from all ready clients if and only if all but the last of
them are answered. -/
theorem scan_all_iff (stack : ℕ → Stack) : ∀ (left i : ℕ) (s : Server),
    (scan (fun _ => true) stack left i s).1 = readyFrom s left i ↔
      Lasts stack (readySlots s left i) s := by
  intro left
  induction left with
  | zero => exact fun _ _ => iff_of_true rfl trivial
  | succ left ih =>
    intro i s
    rw [readyFrom_succ, readySlots_succ, scan, if_pos rfl]
    by_cases hready : slotReads s i = []
    · rw [serveSlot_idle hready, if_neg (not_not.mpr hready), hready, List.nil_append]
      exact ih (i + 1) s
    · rw [if_pos hready]
      have hanswer := serveSlot_isSome_iff hready (stack i)
      cases hserve : serveSlot s i (stack i) with
      | none =>
        rw [hserve] at hanswer
        have hfails : ¬ Answerable s i (stack i) := fun h => by cases hanswer.mpr h
        rw [List.self_eq_append_right, readyFrom_eq_nil_iff]
        cases hslots : readySlots s left (i + 1) with
        | nil => exact iff_of_true rfl trivial
        | cons j slots => exact iff_of_false (List.cons_ne_nil j slots) fun h => hfails h.1
      | some s' =>
        rw [hserve] at hanswer
        have hrest := ih (i + 1) s'
        rw [readyFrom_serveSlot hserve, readySlots_serveSlot hserve] at hrest
        rw [List.append_cancel_left_eq, hrest]
        cases readySlots s left (i + 1) with
        | nil => exact Iff.rfl
        | cons j slots =>
          rw [Lasts, and_iff_right (hanswer.mp rfl)]
          exact ⟨fun h t ht => by rwa [← Option.some.inj (hserve.symm.trans ht)],
            fun h => h s' hserve⟩

/-- The scan with its stops is the loop of `write_pool`. -/
theorem scan_writeLoop : ∀ {left i : ℕ} {s : Server},
    (scan readyLeft stack left i s).2 = writeLoop stack left i s := by
  intro left
  induction left with
  | zero => exact fun {i s} => rfl
  | succ left ih =>
    intro i s
    by_cases hgo : s.pool.nready > 0
    · rw [scan, writeLoop, if_pos (readyLeft_iff.mpr hgo), if_pos hgo]
      cases hserve : serveSlot s i (stack i) with
      | none => rfl
      | some s' => exact ih
    · rw [scan, writeLoop, if_neg (mt readyLeft_iff.mp hgo), if_neg hgo]

end Scans

section Rounds

variable {s s₁ : Server} {r : Round} {fd : Int}

/-- What the pool and the answer of `select` give at a slot. -/
theorem mem_slotReads {i : ℕ} : fd ∈ slotReads s i ↔
    s.pool.clientfd i = fd ∧ 0 < fd ∧ s.pool.readySet fd = true := by
  rw [slotReads]
  by_cases hready : s.pool.clientfd i > 0 ∧ s.pool.readySet (s.pool.clientfd i) = true
  · rw [if_pos hready, List.mem_singleton]
    constructor
    · rintro rfl
      exact ⟨rfl, hready⟩
    · exact fun h => h.1.symm
  · rw [if_neg hready]
    constructor
    · intro h
      cases h
    · rintro ⟨rfl, h⟩
      exact absurd h hready

theorem slotReads_nil {i : ℕ}
    (h : ∀ fd, s.pool.clientfd i = fd → 0 < fd → s.pool.readySet fd ≠ true) :
    slotReads s i = [] := by
  refine List.eq_nil_iff_forall_not_mem.mpr fun fd hfd => ?_
  obtain ⟨heq, hpos, hready⟩ := mem_slotReads.mp hfd
  exact h fd heq hpos hready

/-- The pool between `select` and `add_client`. -/
def selectPool (s : Server) (r : Round) : Server :=
  { s with pool := { s.pool with readySet := r.ready, nready := r.nready } }

/-- `see_pool` puts nothing into the slots that is read in the same round, and takes the
listening descriptor off `nready`. -/
theorem seePool_slots (hselect : Selected s r)
    (haccept : r.ready s.listenfd = true →
      r.connfd ≠ s.listenfd ∧ (s.sockets r.connfd).isOpen = false)
    (hsee : seePool s r = some s₁) :
    (∀ i, slotReads s₁ i = slotReads (selectPool s r) i) ∧ s.pool.maxi ≤ s₁.pool.maxi ∧
      s₁.pool.nready = r.nready - if r.ready s.listenfd = true then 1 else 0 := by
  rw [seePool] at hsee
  by_cases hlisten : r.ready s.listenfd = true
  · obtain ⟨hne, hclosed⟩ := haccept hlisten
    have hnew : r.ready r.connfd = false := by
      rw [← Bool.not_eq_true]
      intro hready
      rcases hselect.listed _ hready with heq | hopen
      · exact hne heq
      · rw [hclosed] at hopen
        cases hopen
    rw [if_pos hlisten] at hsee ⊢
    simp only [addClient, Option.bind_eq_bind, Option.bind_eq_some_iff] at hsee
    obtain ⟨i, hfind, readSet, -, hadd⟩ := hsee
    obtain ⟨hfree, -⟩ := Accounted.find_free hfind
    obtain rfl := Option.some.inj hadd
    refine ⟨fun j => ?_, le_max_left .., rfl⟩
    by_cases hj : j = i
    · -- the slot was free, and what it holds now is not in the ready set
      subst hj
      have hadded : ∀ fd, Function.update s.pool.clientfd j r.connfd j = fd → 0 < fd →
          r.ready fd ≠ true := by
        rintro fd rfl -
        rw [Function.update_self, hnew]
        exact Bool.false_ne_true
      have hempty : ∀ fd, s.pool.clientfd j = fd → 0 < fd → r.ready fd ≠ true := by
        rintro fd rfl hpos
        exact absurd hfree hpos.not_gt
      exact (slotReads_nil hadded).trans (slotReads_nil hempty).symm
    · exact slotReads_congr rfl (Function.update_of_ne hj ..)
  · rw [if_neg hlisten, Option.some.injEq] at hsee
    rw [← hsee, if_neg hlisten]
    exact ⟨fun _ => rfl, le_rfl, (Int.sub_zero _).symm⟩

theorem mem_readyFrom (hpool : Pooled s) :
    fd ∈ readyFrom (selectPool s r) fdSetsize 0 ↔
      Entry s.pool.clientfd fd ∧ r.ready fd = true := by
  rw [readyFrom, List.mem_flatMap]
  constructor
  · rintro ⟨i, -, hfd⟩
    obtain ⟨heq, hpos, hready⟩ := mem_slotReads.mp hfd
    exact ⟨⟨hpos.le, i, heq⟩, hready⟩
  · rintro ⟨hentry, hready⟩
    obtain ⟨hpos, i, rfl⟩ := hentry
    have hi := (hpool.index i hpos).1
    refine ⟨i, List.mem_range'_1.mpr ⟨Nat.zero_le i, by omega⟩, mem_slotReads.mpr ⟨rfl, ?_, hready⟩⟩
    exact hpool.positive _ ⟨hpos, i, rfl⟩

/-- No client is in two slots. -/
theorem readyFrom_nodup (hpool : Pooled s) (left i : ℕ) :
    (readyFrom (selectPool s r) left i).Nodup := by
  refine List.nodup_flatMap.mpr ⟨fun j _ => ?_, ?_⟩
  · rw [slotReads]
    split
    · exact List.nodup_singleton _
    · exact List.nodup_nil
  · refine (List.nodup_range' (s := i) (n := left)).imp fun {j k} hne fd hj hk => ?_
    obtain ⟨hjfd, hpos, -⟩ := mem_slotReads.mp hj
    obtain ⟨hkfd, -, -⟩ := mem_slotReads.mp hk
    exact hne (hpool.distinct j k (hjfd ▸ hpos.le) (hjfd.trans hkfd.symm))

/-- `select` counts the ready clients and the listening descriptor. -/
theorem length_readyFrom (hpool : Pooled s) (hselect : Selected s r) :
    ((readyFrom (selectPool s r) fdSetsize 0).length : Int) ≤
      r.nready - if r.ready s.listenfd = true then 1 else 0 := by
  set reads := readyFrom (selectPool s r) fdSetsize 0 with hreads
  set counted := (Finset.range fdSetsize).filter fun fd : ℕ => r.ready fd = true with hcounted
  have hmem : ∀ fd, 0 ≤ fd → r.ready fd = true → fd.toNat ∈ counted := by
    intro fd hpos hready
    have hbound := (hselect.bounds fd hready).2
    rw [hcounted, Finset.mem_filter, Finset.mem_range, Int.toNat_of_nonneg hpos]
    exact ⟨by omega, hready⟩
  have hnodup : (reads.map Int.toNat).Nodup := by
    refine (readyFrom_nodup hpool fdSetsize 0).map_on fun fd hfd g hg heq => ?_
    have hfdpos := ((mem_readyFrom hpool).mp hfd).1.1
    have hgpos := ((mem_readyFrom hpool).mp hg).1.1
    omega
  have hsub : (reads.map Int.toNat).toFinset ⊆ counted.erase s.listenfd.toNat := by
    intro n hn
    obtain ⟨fd, hfd, rfl⟩ := List.mem_map.mp (List.mem_toFinset.mp hn)
    obtain ⟨hentry, hready⟩ := (mem_readyFrom hpool).mp hfd
    have hpos := hpool.positive fd hentry
    refine Finset.mem_erase.mpr ⟨fun heq => ?_, hmem fd hpos.le hready⟩
    have hsame : fd = s.listenfd := by omega
    exact hpool.apart (hsame ▸ hentry)
  have hcard := Finset.card_le_card hsub
  rw [List.toFinset_card_of_nodup hnodup, List.length_map] at hcard
  rw [hselect.counted, ← hcounted]
  split
  · next hlisten =>
    have herase := Finset.card_erase_add_one
      (hmem s.listenfd (hselect.bounds _ hlisten).1 hlisten)
    omega
  · have herase := Finset.card_erase_le (s := counted) (a := s.listenfd.toNat)
    omega

/-- `see_pool` returns if it has room for what it accepts. -/
theorem seePool_isSome_iff : (seePool s r).isSome = true ↔ Admits s r := by
  rw [seePool, Admits]
  by_cases hlisten : r.ready s.listenfd = true
  · rw [if_pos hlisten, forall_prop_of_true hlisten]
    simp only [addClient, fdSet, Option.bind_eq_bind]
    change (Option.bind (List.find? (fun i => decide (s.pool.clientfd i < 0)) _) _).isSome = true ↔ _
    cases hfind : (List.range fdSetsize).find? (fun i => decide (s.pool.clientfd i < 0)) with
    | none =>
      refine iff_of_false Bool.false_ne_true fun h => ?_
      obtain ⟨-, -, i, hi, hfree⟩ := h
      have hnone := List.find?_eq_none.mp hfind i (List.mem_range.mpr hi)
      exact hnone (decide_eq_true hfree)
    | some i =>
      obtain ⟨hfree, hi⟩ := Accounted.find_free hfind
      by_cases hfits : 0 ≤ r.connfd ∧ r.connfd < fdSetsize
      · rw [Option.bind_some, if_pos hfits]
        exact iff_of_true rfl ⟨hfits.1, hfits.2, i, hi, hfree⟩
      · rw [Option.bind_some, if_neg hfits]
        exact iff_of_false Bool.false_ne_true fun h => hfits ⟨h.1, h.2.1⟩
  · rw [if_neg hlisten]
    exact iff_of_true rfl fun h => absurd h hlisten

/-- The round reads from exactly the clients that are ready, each once, and does what a scan of
all slots does. -/
structure Serves (s : Server) (r : Round) : Prop where
  same : roundWith stoppingScan s r = roundWith fullScan s r
  once : (roundWith stoppingScan s r).1.Nodup
  ready : ∀ fd ∈ (roundWith stoppingScan s r).1, Entry s.pool.clientfd fd ∧ r.ready fd = true
  all : ∀ fd, Entry s.pool.clientfd fd → r.ready fd = true → fd ∈ (roundWith stoppingScan s r).1

/-- The scan of a round whose `see_pool` returns. -/
theorem roundWith_see (hpool : Pooled s) (hselect : Selected s r)
    (haccept : r.ready s.listenfd = true →
      r.connfd ≠ s.listenfd ∧ (s.sockets r.connfd).isOpen = false)
    (hsee : seePool s r = some s₁) :
    roundWith stoppingScan s r = fullScan s₁ r.stack ∧
      roundWith fullScan s r = fullScan s₁ r.stack := by
  obtain ⟨hslots, hmaxi, hnready⟩ := seePool_slots hselect haccept hsee
  have hreads : readyFrom s₁ fdSetsize 0 = readyFrom (selectPool s r) fdSetsize 0 :=
    List.flatMap_congr fun j _ => hslots j
  rw [roundWith, roundWith, hsee]
  refine ⟨scan_stops ?_ (fun j hj => ?_) fun j hj => ?_, rfl⟩
  · rw [hreads, hnready]
    exact length_readyFrom hpool hselect
  · rw [hslots]
    refine slotReads_nil fun fd heq hpos => ?_
    have hle := (hpool.index j (hpos.le.trans_eq heq.symm)).2
    omega
  · rw [hslots]
    refine slotReads_nil fun fd heq hpos => ?_
    have hlt := (hpool.index j (hpos.le.trans_eq heq.symm)).1
    omega

theorem serves_iff_all (hpool : Pooled s) {reads : List Int} (hnodup : reads.Nodup)
    (hfirst : reads <+: readyFrom (selectPool s r) fdSetsize 0) :
    (∀ fd, Entry s.pool.clientfd fd → r.ready fd = true → fd ∈ reads) ↔
      reads = readyFrom (selectPool s r) fdSetsize 0 := by
  constructor
  · intro hall
    refine hfirst.eq_of_length_le (List.subperm_of_subset (readyFrom_nodup hpool _ _) ?_).length_le
    intro fd hfd
    obtain ⟨hentry, hready⟩ := (mem_readyFrom hpool).mp hfd
    exact hall fd hentry hready
  · rintro rfl fd hentry hready
    exact (mem_readyFrom hpool).mpr ⟨hentry, hready⟩

/-- What a round reads, and when that is all that is ready: a connection that is accepted must
find room, and all ready clients but the last must be answered. -/
theorem round_serves_iff (hpool : Pooled s) (hselect : Selected s r)
    (haccept : r.ready s.listenfd = true →
      r.connfd ≠ s.listenfd ∧ (s.sockets r.connfd).isOpen = false) :
    (roundWith stoppingScan s r).2 = ConnectionPool.round s r ∧
      (Serves s r ↔ (∃ fd, Entry s.pool.clientfd fd ∧ r.ready fd = true) → Admits s r ∧
        ∀ s₁, seePool s r = some s₁ →
          Lasts r.stack (readySlots (selectPool s r) fdSetsize 0) s₁) := by
  cases hsee : seePool s r with
  | none =>
    have hnone : ∀ write, roundWith write s r = ([], none) := fun write => by rw [roundWith, hsee]
    have hroom : ¬ Admits s r := fun h => by
      have hsome := seePool_isSome_iff.mpr h
      rw [hsee] at hsome
      cases hsome
    refine ⟨by rw [hnone, ConnectionPool.round, hsee]; rfl, fun h ⟨fd, hentry, hready⟩ => ?_,
      fun h => ⟨by rw [hnone, hnone], ?_, fun fd hfd => ?_, fun fd hentry hready => ?_⟩⟩
    · have hfd := h.all fd hentry hready
      rw [hnone] at hfd
      cases hfd
    · rw [hnone]
      exact List.nodup_nil
    · rw [hnone] at hfd
      cases hfd
    · exact absurd (h ⟨fd, hentry, hready⟩).1 hroom
  | some s₁ =>
    obtain ⟨hstop, hfull⟩ := roundWith_see hpool hselect haccept hsee
    obtain ⟨hslots, -, -⟩ := seePool_slots hselect haccept hsee
    have hreads : readyFrom s₁ fdSetsize 0 = readyFrom (selectPool s r) fdSetsize 0 :=
      List.flatMap_congr fun j _ => hslots j
    have hfirst := scan_prefix r.stack fdSetsize 0 s₁
    have hlasts := scan_all_iff r.stack fdSetsize 0 s₁
    rw [hreads] at hfirst
    rw [hreads, readySlots_congr hslots] at hlasts
    have hnodup := (readyFrom_nodup hpool _ _).sublist hfirst.sublist
    have hall := serves_iff_all hpool hnodup hfirst
    refine ⟨?_, fun h _ => ⟨?_, fun s₂ hs₂ => ?_⟩, fun h => ?_⟩
    · rw [roundWith, ConnectionPool.round, hsee]
      exact scan_writeLoop
    · exact seePool_isSome_iff.mp (by rw [hsee]; rfl)
    · rw [← Option.some.inj hs₂, ← hlasts, ← hall]
      have hserved := h.all
      rwa [hstop] at hserved
    · refine ⟨hstop.trans hfull.symm, ?_, fun fd hfd => ?_, ?_⟩
      · rwa [hstop]
      · rw [hstop] at hfd
        exact (mem_readyFrom hpool).mp (hfirst.subset hfd)
      · rw [hstop]
        intro fd hentry hready
        exact hall.mpr (hlasts.mpr ((h ⟨fd, hentry, hready⟩).2 s₁ rfl)) fd hentry hready

end Rounds

/-- The clients with descriptors 4, 5 and so on in the first slots, and what they have sent. -/
def clientsSending (sent : List Text) : Server where
  listenfd := 3
  pool := { initPool 3 with
    maxfd := 3 + sent.length
    readSet := fun fd => 3 ≤ fd ∧ fd ≤ 3 + sent.length
    n := sent.length
    maxi := sent.length - 1
    clientfd := fun i => if i < sent.length then 4 + i else -1 }
  sockets := fun fd =>
    if 4 ≤ fd ∧ fd ≤ 3 + sent.length then
      let line := sent.getD (fd - 4).toNat []
      ⟨line, .connected, true, line, []⟩
    else ⟨[], .connected, false, [], []⟩
  root := .null

theorem entry_clientsSending {sent : List Text} {fd : Int} :
    Entry (clientsSending sent).pool.clientfd fd ↔ 4 ≤ fd ∧ fd ≤ 3 + sent.length := by
  constructor
  · rintro ⟨hpos, i, rfl⟩
    change 0 ≤ (if i < sent.length then 4 + (i : Int) else -1) at hpos
    change 4 ≤ (if i < sent.length then 4 + (i : Int) else -1) ∧
      (if i < sent.length then 4 + (i : Int) else -1) ≤ 3 + sent.length
    split_ifs at hpos ⊢ <;> omega
  · rintro ⟨hle, hend⟩
    refine ⟨by omega, (fd - 4).toNat, ?_⟩
    change (if (fd - 4).toNat < sent.length then 4 + ((fd - 4).toNat : Int) else -1) = fd
    rw [if_pos (by omega)]
    omega

theorem pooled_clientsSending {sent : List Text} (hlen : sent.length < fdSetsize) :
    Pooled (clientsSending sent) := by
  have hslot : ∀ i, (clientsSending sent).pool.clientfd i =
      if i < sent.length then 4 + (i : Int) else -1 := fun _ => rfl
  refine ⟨fun fd hentry => ?_, fun i j hi heq => ?_, fun fd hentry => ?_, fun i hi => ?_, ?_⟩
  · have hle := (entry_clientsSending.mp hentry).1
    omega
  · rw [hslot] at hi
    rw [hslot, hslot] at heq
    split_ifs at hi heq <;> omega
  · obtain ⟨hle, hend⟩ := entry_clientsSending.mp hentry
    exact decide_eq_true ⟨by omega, hend⟩
  · rw [hslot] at hi
    change i < fdSetsize ∧ (i : Int) ≤ sent.length - 1
    split_ifs at hi <;> omega
  · rw [entry_clientsSending]
    rintro ⟨hle, -⟩
    change (4 : Int) ≤ 3 at hle
    omega

def twoClients : Server := clientsSending [ascii "exit\n", ascii "exit\n"]

def leaving : Round :=
  { oneReady 3 with ready := fun fd => fd = 3 ∨ fd = 4 ∨ fd = 5, nready := 3, connfd := 6 }

/-- Both clients are read though the new connection is counted off first. -/
theorem round_serves_leaving : Serves twoClients leaving := by
  have hready : ∀ fd, leaving.ready fd = true → fd = 3 ∨ fd = 4 ∨ fd = 5 :=
    fun fd h => of_decide_eq_true h
  have hselect : Selected twoClients leaving := by
    refine ⟨fun fd h => ?_, fun fd h => ?_, fun fd h => ?_, by decide +kernel⟩
    · rcases hready fd h with rfl | rfl | rfl <;> rfl
    · rcases hready fd h with rfl | rfl | rfl
      · exact Or.inl rfl
      · exact Or.inr rfl
      · exact Or.inr rfl
    · rcases hready fd h with rfl | rfl | rfl <;> decide
  have hpool : Pooled twoClients := pooled_clientsSending (by decide)
  refine (round_serves_iff hpool hselect fun _ => ⟨by decide, rfl⟩).2.mpr fun _ =>
    ⟨fun _ => ⟨by decide, by decide, 2, by decide, by decide⟩, fun s₁ hsee => ?_⟩
  obtain rfl : (seePool twoClients leaving).getD twoClients = s₁ := by rw [hsee]; rfl
  have hslots : readySlots (selectPool twoClients leaving) fdSetsize 0 = [0, 1] := by
    decide +kernel
  have hanswer := (serveSlot_isSome_iff
    (s := (seePool twoClients leaving).getD twoClients) (i := 0) (by decide +kernel)
    clearStack).mp (by decide +kernel)
  rw [hslots]
  exact ⟨hanswer, fun _ _ => trivial⟩

def threeClients : Server := clientsSending [ascii "foo\n", ascii "\n", ascii "show\n"]

/-- All three are ready. `cmd` begins empty, and each iteration finds what the one before has
left of it, with `args` freed. -/
def typing : Round where
  ready := fun fd => fd = 4 ∨ fd = 5 ∨ fd = 6
  nready := 3
  connfd := 7
  arrived := []
  stack := fun i =>
    if i = 0 then clearStack else ⟨ascii "foo\n\x00", clearCommand, .stray, by decide⟩

/-- For the empty line the vector of the request before is freed again, and the third client is
never read. -/
theorem round_serves_empty_line : Pooled threeClients ∧ Selected threeClients typing ∧
    typing.ready threeClients.listenfd = false ∧ ConnectionPool.round threeClients typing = none ∧
    (roundWith stoppingScan threeClients typing).1 = [4, 5] ∧ ¬ Serves threeClients typing := by
  have hready : ∀ fd, typing.ready fd = true → fd = 4 ∨ fd = 5 ∨ fd = 6 :=
    fun fd h => of_decide_eq_true h
  have hread : (roundWith stoppingScan threeClients typing).1 = [4, 5] := by decide +kernel
  have hdead : (ConnectionPool.round threeClients typing).isSome = false := by decide +kernel
  refine ⟨pooled_clientsSending (by decide), ⟨fun fd h => ?_, fun fd h => ?_, fun fd h => ?_,
    by decide +kernel⟩, rfl, Option.not_isSome_iff_eq_none.mp (by rw [hdead]; decide), hread,
    fun h => ?_⟩
  · rcases hready fd h with rfl | rfl | rfl <;> rfl
  · rcases hready fd h with rfl | rfl | rfl <;> exact Or.inr rfl
  · rcases hready fd h with rfl | rfl | rfl <;> decide
  · have hlast := h.all 6 (entry_clientsSending.mpr (by decide)) rfl
    rw [hread] at hlast
    exact absurd hlast (by decide)

end SystemSoftware.PoolScan
