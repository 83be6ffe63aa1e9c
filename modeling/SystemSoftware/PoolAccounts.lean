import SystemSoftware.PoolRuns
import Mathlib.Data.Finset.Card
import Mathlib.Data.Finset.Range

/-!
The bookkeeping of the event-driven server's pool over runs of the main loop with
any answers of `select`. `see_pool` adds what `accept` returns without a test, so
that a failed `accept` is counted in `n` though no client has come. The slots, the
descriptor set and the bounds agree with the open connections, and `n` is the
number of clients and of the accepts that failed.
-/
namespace SystemSoftware.PoolAccounts

open StockTree RequestParser RioBuffer ConnectionPool PoolRuns Transitions

/-- `add_client` with the -1 of a failed `accept`. `FD_SET` writes outside of the
set there; `stray` is what the set holds then. -/
def addRefused (s : Server) (stray : Int → Bool) : Option Server := do
  let p := s.pool
  let i ← (List.range fdSetsize).find? (fun i => p.clientfd i < 0)
  let pool := { p with
    nready := p.nready - 1
    clientfd := Function.update p.clientfd i (-1)
    clientrio := Function.update p.clientrio i rioReadinitb
    readSet := stray
    maxfd := max p.maxfd (-1)
    maxi := max p.maxi i
    n := p.n + 1 }
  some { s with pool := pool }

def refusedRound (s : Server) (r : Round) (stray : Int → Bool) : Option Server := do
  let s ← addRefused
    { s with pool := { s.pool with readySet := r.ready, nready := r.nready } } stray
  writePool s r.stack

/-- The server, and how many accepts have failed so far. -/
structure Watched where
  server : Server
  refused : ℕ

inductive Action
  | arrive (fd : Int) (bytes : DecimalText.Text)
  | hangUp (fd : Int)
  | reset (fd : Int)
  | round (r : Round)
  | refused (r : Round) (stray : Int → Bool)

inductive Step : Watched → Action → Watched → Prop
  | arrive {s : Server} {k : ℕ} {fd : Int} {bytes : DecimalText.Text} :
      Step ⟨s, k⟩ (.arrive fd bytes) ⟨s.setSocket fd { s.sockets fd with
        inbox := (s.sockets fd).inbox ++ bytes
        received := (s.sockets fd).received ++ bytes }, k⟩
  | hangUp {s : Server} {k : ℕ} {fd : Int} :
      Step ⟨s, k⟩ (.hangUp fd) ⟨s.setSocket fd { s.sockets fd with peer := .closed }, k⟩
  | reset {s : Server} {k : ℕ} {fd : Int} :
      Step ⟨s, k⟩ (.reset fd) ⟨s.setSocket fd { s.sockets fd with peer := .reset }, k⟩
  | round {s s' : Server} {k : ℕ} {r : Round}
      (haccept : r.ready s.listenfd = true →
        0 ≤ r.connfd ∧ r.connfd ≠ s.listenfd ∧ (s.sockets r.connfd).isOpen = false)
      (hcall : ConnectionPool.round s r = some s') :
      Step ⟨s, k⟩ (.round r) ⟨s', k⟩
  | refused {s s' : Server} {k : ℕ} {r : Round} {stray : Int → Bool}
      (hready : r.ready s.listenfd = true) (hcall : refusedRound s r stray = some s') :
      Step ⟨s, k⟩ (.refused r stray) ⟨s', k + 1⟩

def Started (w : Watched) : Prop := PoolRuns.Started w.server ∧ w.refused = 0

def runs : System Watched Action := ⟨Started, Step⟩

def Entry (clientfd : ℕ → Int) (fd : Int) : Prop := 0 ≤ fd ∧ ∃ i, clientfd i = fd

def clients (clientfd : ℕ → Int) : Finset ℕ :=
  (Finset.range fdSetsize).filter fun i => 0 ≤ clientfd i

/-- The state of the pool between two rounds, as the main loop relies on it. -/
structure Consistent (s : Server) : Prop where
  distinct : ∀ i j, 0 ≤ s.pool.clientfd i → s.pool.clientfd i = s.pool.clientfd j → i = j
  watched : ∀ fd, s.pool.readSet fd = true ∧ fd ≠ s.listenfd ↔ Entry s.pool.clientfd fd
  index : ∀ i, 0 ≤ s.pool.clientfd i → i < fdSetsize ∧ (i : Int) ≤ s.pool.maxi
  bound : ∀ i, 0 ≤ s.pool.clientfd i → s.pool.clientfd i ≤ s.pool.maxfd
  counted : s.pool.n = (clients s.pool.clientfd).card
  saved : s.pool.n = 0 ↔ ∀ fd, (s.sockets fd).isOpen = false

/-- What holds of the pool after any accepts, `k` of which have failed. -/
structure Accounted (k : ℕ) (s : Server) : Prop where
  distinct : ∀ i j, 0 ≤ s.pool.clientfd i → s.pool.clientfd i = s.pool.clientfd j → i = j
  index : ∀ i, 0 ≤ s.pool.clientfd i → i < fdSetsize ∧ (i : Int) ≤ s.pool.maxi
  bound : ∀ i, 0 ≤ s.pool.clientfd i → s.pool.clientfd i ≤ s.pool.maxfd
  counted : s.pool.n = (clients s.pool.clientfd).card + k
  connected : ∀ fd, (s.sockets fd).isOpen = true ↔ Entry s.pool.clientfd fd
  apart : ¬ Entry s.pool.clientfd s.listenfd
  watched : k = 0 → ∀ fd, s.pool.readSet fd = true ↔ fd = s.listenfd ∨ Entry s.pool.clientfd fd

section Slots

variable {clientfd : ℕ → Int} {i : ℕ} {fd connfd : Int}

theorem clients_remove (h : connfd < 0) :
    clients (Function.update clientfd i connfd) = (clients clientfd).erase i := by
  ext j
  rw [Finset.mem_erase, clients, clients, Finset.mem_filter, Finset.mem_filter]
  by_cases hj : j = i
  · subst hj
    rw [Function.update_self]
    constructor
    · intro hmem
      exact absurd hmem.2 (by omega)
    · intro hmem
      exact absurd rfl hmem.1
  · rw [Function.update_of_ne hj]
    exact (and_iff_right hj).symm

theorem clients_add (hi : i < fdSetsize) (h : 0 ≤ connfd) :
    clients (Function.update clientfd i connfd) = insert i (clients clientfd) := by
  ext j
  rw [Finset.mem_insert, clients, clients, Finset.mem_filter, Finset.mem_filter]
  by_cases hj : j = i
  · subst hj
    rw [Function.update_self]
    exact ⟨fun _ => Or.inl rfl, fun _ => ⟨Finset.mem_range.mpr hi, h⟩⟩
  · rw [Function.update_of_ne hj]
    exact (or_iff_right hj).symm

/-- The slots that hold a descriptor after a change of slot `i`. -/
theorem update_cases {j : ℕ} (h : 0 ≤ Function.update clientfd i connfd j) :
    (j = i ∧ Function.update clientfd i connfd j = connfd) ∨
      (j ≠ i ∧ Function.update clientfd i connfd j = clientfd j ∧ 0 ≤ clientfd j) := by
  by_cases hj : j = i
  · exact Or.inl ⟨hj, by rw [hj, Function.update_self]⟩
  · rw [Function.update_of_ne hj] at h ⊢
    exact Or.inr ⟨hj, rfl, h⟩

/-- What holds of every slot in use holds after a change of slot `i` if it holds there. -/
theorem slots_update {P : ℕ → Int → Prop} (hold : ∀ j, 0 ≤ clientfd j → P j (clientfd j))
    (hnew : 0 ≤ connfd → P i connfd) (j : ℕ) (hj : 0 ≤ Function.update clientfd i connfd j) :
    P j (Function.update clientfd i connfd j) := by
  rcases update_cases hj with ⟨rfl, heq⟩ | ⟨-, heq, hpos⟩
  · rw [heq] at hj ⊢
    exact hnew hj
  · rw [heq]
    exact hold j hpos

theorem distinct_update (hdistinct : ∀ i j, 0 ≤ clientfd i → clientfd i = clientfd j → i = j)
    (hnew : 0 ≤ connfd → ∀ j, j ≠ i → clientfd j ≠ connfd) (a b : ℕ)
    (ha : 0 ≤ Function.update clientfd i connfd a)
    (heq : Function.update clientfd i connfd a = Function.update clientfd i connfd b) : a = b := by
  rcases update_cases ha with ⟨rfl, hfd⟩ | ⟨hne, hfd, hold⟩
  · by_contra hab
    rw [hfd, Function.update_of_ne (Ne.symm hab)] at heq
    exact hnew (hfd ▸ ha) b (Ne.symm hab) heq.symm
  · rcases update_cases (heq ▸ ha) with ⟨rfl, hfd'⟩ | ⟨-, hfd', -⟩
    · have hsame : clientfd a = connfd := hfd.symm.trans (heq.trans hfd')
      exact absurd hsame (hnew (hsame ▸ hold) a hne)
    · exact hdistinct a b hold (hfd.symm.trans (heq.trans hfd'))

theorem entry_remove (hdistinct : ∀ i j, 0 ≤ clientfd i → clientfd i = clientfd j → i = j) :
    Entry (Function.update clientfd i (-1)) fd ↔ Entry clientfd fd ∧ fd ≠ clientfd i := by
  constructor
  · rintro ⟨hpos, j, rfl⟩
    rcases update_cases hpos with ⟨-, heq⟩ | ⟨hj, heq, hold⟩
    · omega
    · rw [heq]
      exact ⟨⟨hold, j, rfl⟩, fun hsame => hj (hdistinct j i hold hsame)⟩
  · rintro ⟨⟨hpos, j, rfl⟩, hne⟩
    have hj : j ≠ i := fun heq => hne (by rw [heq])
    exact ⟨hpos, j, Function.update_of_ne hj ..⟩

theorem entry_add (hi : clientfd i < 0) (hpos : 0 ≤ connfd) :
    Entry (Function.update clientfd i connfd) fd ↔ Entry clientfd fd ∨ fd = connfd := by
  constructor
  · rintro ⟨hfd, j, rfl⟩
    rcases update_cases hfd with ⟨-, heq⟩ | ⟨hj, heq, hold⟩
    · exact Or.inr heq
    · rw [heq]
      exact Or.inl ⟨hold, j, rfl⟩
  · rintro (⟨hfd, j, rfl⟩ | rfl)
    · have hj : j ≠ i := by
        rintro rfl
        omega
      exact ⟨hfd, j, Function.update_of_ne hj ..⟩
    · exact ⟨hpos, i, Function.update_self ..⟩

/-- A slot that was free gets the -1 of a failed `accept`. -/
theorem entry_refused (hi : clientfd i < 0) :
    Entry (Function.update clientfd i (-1)) fd ↔ Entry clientfd fd := by
  constructor
  · rintro ⟨hfd, j, rfl⟩
    rcases update_cases hfd with ⟨-, heq⟩ | ⟨-, heq, hold⟩
    · omega
    · rw [heq]
      exact ⟨hold, j, rfl⟩
  · rintro ⟨hfd, j, rfl⟩
    have hj : j ≠ i := by
      rintro rfl
      omega
    exact ⟨hfd, j, Function.update_of_ne hj ..⟩

theorem mem_clients (h : ∀ i, 0 ≤ clientfd i → i < fdSetsize) :
    i ∈ clients clientfd ↔ 0 ≤ clientfd i := by
  rw [clients, Finset.mem_filter, Finset.mem_range]
  exact and_iff_right_of_imp (h i)

end Slots

namespace Accounted

variable {k : ℕ} {s s' : Server} {i : ℕ} {connfd : Int}

/-- Nothing changes but what is read and answered. -/
theorem same (h : Accounted k s) (hfd : s'.pool.clientfd = s.pool.clientfd)
    (hset : s'.pool.readSet = s.pool.readSet) (hmaxi : s'.pool.maxi = s.pool.maxi)
    (hmaxfd : s'.pool.maxfd = s.pool.maxfd) (hn : s'.pool.n = s.pool.n)
    (hlisten : s'.listenfd = s.listenfd)
    (hopen : ∀ fd, (s'.sockets fd).isOpen = (s.sockets fd).isOpen) : Accounted k s' := by
  constructor
  · rw [hfd]
    exact h.distinct
  · rw [hfd, hmaxi]
    exact h.index
  · rw [hfd, hmaxfd]
    exact h.bound
  · rw [hfd, hn]
    exact h.counted
  · intro fd
    rw [hfd, hopen]
    exact h.connected fd
  · rw [hfd, hlisten]
    exact h.apart
  · rw [hfd, hlisten, hset]
    exact h.watched

/-- A socket is read from or written to. -/
theorem setSocket (h : Accounted k s) (fd : Int) (sock : Socket)
    (hopen : sock.isOpen = (s.sockets fd).isOpen) : Accounted k (s.setSocket fd sock) := by
  refine h.same rfl rfl rfl rfl rfl rfl fun g => ?_
  by_cases hg : g = fd
  · rw [hg, setSocket_self, hopen]
  · rw [setSocket_of_ne s sock hg]

/-- A slot is emptied and its descriptor taken out of the set. -/
theorem removed (h : Accounted k s) (hpos : 0 ≤ s.pool.clientfd i)
    (hfd : s'.pool.clientfd = Function.update s.pool.clientfd i (-1))
    (hset : s'.pool.readSet = Function.update s.pool.readSet (s.pool.clientfd i) false)
    (hmaxi : s'.pool.maxi = s.pool.maxi) (hmaxfd : s'.pool.maxfd = s.pool.maxfd)
    (hn : s'.pool.n = s.pool.n - 1) (hlisten : s'.listenfd = s.listenfd)
    (hopen : ∀ fd, (s'.sockets fd).isOpen = true ↔
      (s.sockets fd).isOpen = true ∧ fd ≠ s.pool.clientfd i) : Accounted k s' := by
  constructor
  · rw [hfd]
    exact distinct_update h.distinct fun hneg => absurd hneg (by decide)
  · rw [hfd, hmaxi]
    exact slots_update (P := fun j _ => j < fdSetsize ∧ (j : Int) ≤ s.pool.maxi) h.index
      fun hneg => absurd hneg (by decide)
  · rw [hfd, hmaxfd]
    exact slots_update (P := fun _ fd => fd ≤ s.pool.maxfd) h.bound
      fun hneg => absurd hneg (by decide)
  · have hmem : i ∈ clients s.pool.clientfd :=
      (mem_clients fun j hj => (h.index j hj).1).mpr hpos
    have hcard := Finset.card_erase_add_one hmem
    have hold := h.counted
    rw [hfd, hn, clients_remove (by decide)]
    omega
  · intro fd
    rw [hfd, hopen, entry_remove h.distinct, h.connected]
  · rw [hfd, hlisten, entry_remove h.distinct]
    exact fun hentry => h.apart hentry.1
  · intro hk fd
    rw [hfd, hset, hlisten, entry_remove h.distinct]
    by_cases heq : fd = s.pool.clientfd i
    · have hne : s.pool.clientfd i ≠ s.listenfd := fun hsame => h.apart (hsame ▸ ⟨hpos, i, rfl⟩)
      rw [heq, Function.update_self]
      simp [hne]
    · rw [Function.update_of_ne heq, h.watched hk fd, and_iff_left heq]

theorem remove (h : Accounted k s) (hi : s.pool.clientfd i = connfd) (hpos : 0 ≤ connfd) :
    Accounted k (removeClient s connfd i).1 := by
  subst hi
  unfold removeClient
  split
  · refine h.removed hpos rfl rfl rfl rfl rfl rfl fun fd => ?_
    change ((s.setSocket (s.pool.clientfd i) _).sockets fd).isOpen = true ↔ _
    by_cases hfd : fd = s.pool.clientfd i
    · rw [hfd, setSocket_self]
      simp
    · rw [setSocket_of_ne s _ hfd]
      exact (and_iff_left hfd).symm
  · exact h

/-- A free slot gets a descriptor that was not open. -/
theorem added (h : Accounted k s) (hfree : s.pool.clientfd i < 0) (hi : i < fdSetsize)
    (hpos : 0 ≤ connfd) (hclosed : (s.sockets connfd).isOpen = false) (hne : connfd ≠ s.listenfd)
    (hfd : s'.pool.clientfd = Function.update s.pool.clientfd i connfd)
    (hset : s'.pool.readSet = Function.update s.pool.readSet connfd true)
    (hmaxi : s'.pool.maxi = max s.pool.maxi i) (hmaxfd : s'.pool.maxfd = max s.pool.maxfd connfd)
    (hn : s'.pool.n = s.pool.n + 1) (hlisten : s'.listenfd = s.listenfd)
    (hopen : ∀ fd, (s'.sockets fd).isOpen = true ↔ (s.sockets fd).isOpen = true ∨ fd = connfd) :
    Accounted k s' := by
  have hnew : ∀ j, s.pool.clientfd j ≠ connfd := by
    intro j heq
    have hentry := (h.connected connfd).mpr ⟨hpos, j, heq⟩
    rw [hclosed] at hentry
    cases hentry
  constructor
  · rw [hfd]
    exact distinct_update h.distinct fun _ j _ => hnew j
  · rw [hfd, hmaxi]
    exact slots_update (P := fun j _ => j < fdSetsize ∧ (j : Int) ≤ max s.pool.maxi i)
      (fun j hj => ⟨(h.index j hj).1, (h.index j hj).2.trans (le_max_left ..)⟩)
      fun _ => ⟨hi, le_max_right ..⟩
  · rw [hfd, hmaxfd]
    exact slots_update (P := fun _ fd => fd ≤ max s.pool.maxfd connfd)
      (fun j hj => (h.bound j hj).trans (le_max_left ..)) fun _ => le_max_right ..
  · have hmem : i ∉ clients s.pool.clientfd := by
      rw [mem_clients fun j hj => (h.index j hj).1]
      omega
    have hcard := Finset.card_insert_of_notMem hmem
    have hold := h.counted
    rw [hfd, hn, clients_add hi hpos]
    omega
  · intro fd
    rw [hfd, hopen, entry_add hfree hpos, h.connected]
  · rw [hfd, hlisten, entry_add hfree hpos]
    exact not_or.mpr ⟨h.apart, hne.symm⟩
  · intro hk fd
    rw [hfd, hset, hlisten, entry_add hfree hpos]
    by_cases heq : fd = connfd
    · rw [heq, Function.update_self]
      simp
    · rw [Function.update_of_ne heq, h.watched hk fd, or_iff_left heq]

theorem find_free {clientfd : ℕ → Int} {n : ℕ}
    (h : (List.range n).find? (fun i => decide (clientfd i < 0)) = some i) :
    clientfd i < 0 ∧ i < n := by
  have hfree := List.find?_some h
  exact ⟨of_decide_eq_true hfree, List.mem_range.mp (List.mem_of_find?_eq_some h)⟩

/-- What `accept` returns is put into a free slot. -/
theorem add (h : Accounted k s) (hpos : 0 ≤ connfd) (hne : connfd ≠ s.listenfd)
    (hclosed : (s.sockets connfd).isOpen = false) {sock : Socket} (hsock : sock.isOpen = true)
    (hadd : addClient (s.setSocket connfd sock) connfd = some s') : Accounted k s' := by
  simp only [addClient, Option.bind_eq_bind, Option.bind_eq_some_iff] at hadd
  obtain ⟨i, hfind, readSet, hset, hadd⟩ := hadd
  obtain ⟨hfree, hi⟩ := find_free hfind
  obtain rfl := Option.some.inj hadd
  unfold fdSet at hset
  split at hset
  · obtain rfl := Option.some.inj hset
    refine h.added hfree hi hpos hclosed hne rfl rfl rfl rfl rfl rfl fun fd => ?_
    change ((s.setSocket connfd sock).sockets fd).isOpen = true ↔ _
    by_cases hfd : fd = connfd
    · rw [hfd, setSocket_self]
      simp [hsock]
    · rw [setSocket_of_ne s sock hfd]
      exact (or_iff_left hfd).symm
  · cases hset

/-- A free slot gets the -1 of a failed `accept`, which is counted. -/
theorem refused (h : Accounted k s) (hfree : s.pool.clientfd i < 0)
    (hfd : s'.pool.clientfd = Function.update s.pool.clientfd i (-1))
    (hmaxi : s.pool.maxi ≤ s'.pool.maxi) (hmaxfd : s.pool.maxfd ≤ s'.pool.maxfd)
    (hn : s'.pool.n = s.pool.n + 1) (hlisten : s'.listenfd = s.listenfd)
    (hopen : s'.sockets = s.sockets) : Accounted (k + 1) s' := by
  constructor
  · rw [hfd]
    exact distinct_update h.distinct fun hneg => absurd hneg (by decide)
  · rw [hfd]
    exact slots_update (P := fun j _ => j < fdSetsize ∧ (j : Int) ≤ s'.pool.maxi)
      (fun j hj => ⟨(h.index j hj).1, (h.index j hj).2.trans hmaxi⟩)
      fun hneg => absurd hneg (by decide)
  · rw [hfd]
    exact slots_update (P := fun _ fd => fd ≤ s'.pool.maxfd)
      (fun j hj => (h.bound j hj).trans hmaxfd) fun hneg => absurd hneg (by decide)
  · have hmem : i ∉ clients s.pool.clientfd := by
      rw [mem_clients fun j hj => (h.index j hj).1]
      omega
    have hold := h.counted
    rw [hfd, hn, clients_remove (by decide), Finset.erase_eq_of_notMem hmem]
    omega
  · intro fd
    rw [hfd, hopen, entry_refused hfree, h.connected]
  · rw [hfd, hlisten, entry_refused hfree]
    exact h.apart
  · exact fun hk => absurd hk (Nat.succ_ne_zero k)

theorem refuse (h : Accounted k s) {stray : Int → Bool} (hadd : addRefused s stray = some s') :
    Accounted (k + 1) s' := by
  simp only [addRefused, Option.bind_eq_bind, Option.bind_eq_some_iff] at hadd
  obtain ⟨i, hfind, hadd⟩ := hadd
  obtain rfl := Option.some.inj hadd
  exact h.refused (find_free hfind).1 rfl (le_max_left ..) (le_max_left ..) rfl rfl rfl

/-- Recording the line and handling it. -/
theorem answer {line : Line} {stack : Stack} (h : Accounted k s)
    (hi : s.pool.clientfd i = connfd) (hpos : 0 ≤ connfd)
    (hanswer : ConnectionPool.answer s connfd i line stack = some s') : Accounted k s' := by
  by_cases hrc : line.rc ≠ 0
  · have hlogged : Accounted k (s.setSocket connfd { s.sockets connfd with
        parsed := (s.sockets connfd).parsed ++ [(line.rc, line.bytes)] }) := h.setSocket _ _ rfl
    rcases answer_cases hrc hanswer with rfl | ⟨root, rfl⟩
    · exact hlogged.remove hi hpos
    · exact hlogged.same rfl rfl rfl rfl rfl rfl fun _ => rfl
  · rw [ConnectionPool.answer, if_neg hrc, Option.some.injEq] at hanswer
    rw [← hanswer]
    exact h.remove hi hpos

theorem serveSlot {stack : Stack} (h : Accounted k s)
    (hserve : ConnectionPool.serveSlot s i stack = some s') : Accounted k s' := by
  by_cases hready : s.pool.clientfd i > 0 ∧ s.pool.readySet (s.pool.clientfd i) = true
  · simp only [ConnectionPool.serveSlot, if_pos hready, Option.bind_eq_bind,
      Option.bind_eq_some_iff] at hserve
    obtain ⟨⟨line, s₁⟩, hread, hanswer⟩ := hserve
    obtain ⟨sock, rfl, hopen⟩ := readRequest_socket hread
    have hcounted : Accounted k { s with pool := { s.pool with nready := s.pool.nready - 1 } } :=
      h.same rfl rfl rfl rfl rfl rfl fun _ => rfl
    exact (hcounted.setSocket _ sock hopen).answer rfl (Int.le_of_lt hready.1) hanswer
  · rw [ConnectionPool.serveSlot, if_neg hready, Option.some.injEq] at hserve
    rw [← hserve]
    exact h

theorem writeLoop {stack : ℕ → Stack} (left : ℕ) : ∀ (i : ℕ) (s : Server),
    Accounted k s → ConnectionPool.writeLoop stack left i s = some s' → Accounted k s' := by
  induction left with
  | zero =>
    intro i s h hloop
    rw [ConnectionPool.writeLoop, Option.some.injEq] at hloop
    exact hloop ▸ h
  | succ left ih =>
    intro i s h hloop
    rw [ConnectionPool.writeLoop] at hloop
    split at hloop
    · obtain ⟨s₁, hserve, hloop⟩ := Option.bind_eq_some_iff.mp hloop
      exact ih (i + 1) s₁ (h.serveSlot hserve) hloop
    · exact Option.some.inj hloop ▸ h

theorem select (h : Accounted k s) (ready : Int → Bool) (nready : Int) :
    Accounted k { s with pool := { s.pool with readySet := ready, nready := nready } } :=
  h.same rfl rfl rfl rfl rfl rfl fun _ => rfl

theorem round {r : Round} (h : Accounted k s)
    (haccept : r.ready s.listenfd = true →
      0 ≤ r.connfd ∧ r.connfd ≠ s.listenfd ∧ (s.sockets r.connfd).isOpen = false)
    (hround : ConnectionPool.round s r = some s') : Accounted k s' := by
  obtain ⟨s₁, hsee, hwrite⟩ := Option.bind_eq_some_iff.mp hround
  refine writeLoop _ 0 s₁ ?_ hwrite
  unfold seePool at hsee
  by_cases hready : r.ready s.listenfd = true
  · obtain ⟨hpos, hne, hclosed⟩ := haccept hready
    rw [if_pos hready] at hsee
    exact (h.select r.ready r.nready).add hpos hne hclosed rfl hsee
  · rw [if_neg hready, Option.some.injEq] at hsee
    exact hsee ▸ h.select r.ready r.nready

theorem refusedRound {r : Round} {stray : Int → Bool} (h : Accounted k s)
    (hround : PoolAccounts.refusedRound s r stray = some s') : Accounted (k + 1) s' := by
  simp only [PoolAccounts.refusedRound, Option.bind_eq_bind, Option.bind_eq_some_iff] at hround
  obtain ⟨s₁, hadd, hwrite⟩ := hround
  exact writeLoop _ 0 s₁ ((h.select r.ready r.nready).refuse hadd) hwrite

end Accounted

theorem accounted_step {w w' : Watched} {a : Action} (h : Accounted w.refused w.server)
    (hstep : Step w a w') : Accounted w'.refused w'.server := by
  cases hstep with
  | arrive => exact h.setSocket _ _ rfl
  | hangUp => exact h.setSocket _ _ rfl
  | reset => exact h.setSocket _ _ rfl
  | round haccept hcall => exact h.round haccept hcall
  | refused hready hcall => exact h.refusedRound hcall

theorem accounted_started {w : Watched} (hw : Started w) : Accounted w.refused w.server := by
  obtain ⟨⟨hpool, hsockets⟩, hrefused⟩ := hw
  have hfd : w.server.pool.clientfd = fun _ => -1 := by
    rw [hpool]
    rfl
  have hnone : ∀ fd, ¬ Entry w.server.pool.clientfd fd := by
    rintro fd ⟨hpos, i, rfl⟩
    rw [hfd] at hpos
    change 0 ≤ (-1 : Int) at hpos
    omega
  have hslot : ∀ i, ¬ 0 ≤ w.server.pool.clientfd i := fun i hi => hnone _ ⟨hi, i, rfl⟩
  constructor
  · exact fun i _ hi => absurd hi (hslot i)
  · exact fun i hi => absurd hi (hslot i)
  · exact fun i hi => absurd hi (hslot i)
  · have hempty : clients w.server.pool.clientfd = ∅ :=
      Finset.filter_eq_empty_iff.mpr fun i _ => hslot i
    rw [hempty, hrefused, hpool]
    rfl
  · intro fd
    rw [hsockets]
    exact ⟨fun h => (by cases h), fun h => absurd h (hnone fd)⟩
  · exact hnone _
  · intro _ fd
    rw [or_iff_left (hnone fd), hpool]
    exact decide_eq_true_iff

theorem reachable_accounted {w : Watched} (hw : runs.Reachable w) :
    Accounted w.refused w.server := by
  apply hw.invariant
  · intro w hw
    exact accounted_started hw
  · intro w a w' h hstep
    exact accounted_step h hstep

theorem consistent_of_accounted {s : Server} (h : Accounted 0 s) : Consistent s := by
  have hcounted : s.pool.n = (clients s.pool.clientfd).card := by
    have hold := h.counted
    omega
  refine ⟨h.distinct, fun fd => ?_, h.index, h.bound, hcounted, ?_⟩
  · rw [h.watched rfl fd]
    constructor
    · rintro ⟨heq | hentry, hne⟩
      · exact absurd heq hne
      · exact hentry
    · intro hentry
      exact ⟨Or.inr hentry, fun heq => h.apart (heq ▸ hentry)⟩
  · rw [hcounted, Int.natCast_eq_zero, Finset.card_eq_zero]
    constructor
    · intro hempty fd
      rw [← Bool.not_eq_true, h.connected]
      rintro ⟨hpos, i, rfl⟩
      have hmem := (mem_clients fun j hj => (h.index j hj).1).mpr hpos
      rw [hempty] at hmem
      exact absurd hmem (Finset.notMem_empty i)
    · intro hclosed
      refine Finset.filter_eq_empty_iff.mpr fun i _ hi => ?_
      have hopen := (h.connected _).mpr ⟨hi, i, rfl⟩
      rw [hclosed] at hopen
      cases hopen

/-- `n` counts the clients and the accepts that have failed, so that the pool is
consistent, and the table saved when no client is connected, as long as none has. -/
theorem consistent_iff_accepted {w : Watched} (hw : runs.Reachable w) :
    w.server.pool.n = (clients w.server.pool.clientfd).card + w.refused ∧
      (Consistent w.server ↔ w.refused = 0) := by
  have h := reachable_accounted hw
  refine ⟨h.counted, fun hc => ?_, fun hnone => ?_⟩
  · have hcounted := hc.counted
    have hold := h.counted
    omega
  · rw [hnone] at h
    exact consistent_of_accounted h

def twoAccepted : Server :=
  let s := afterRound (afterRound startedServer (oneReady 3)) { oneReady 3 with connfd := 5 }
  s.setSocket 4 { s.sockets 4 with peer := .closed }

def changing : Round :=
  { oneReady 3 with ready := fun fd => fd = 3 ∨ fd = 4, nready := 2, connfd := 6 }

theorem twoAccepted_reachable : runs.Reachable ⟨twoAccepted, 0⟩ := by
  have hstart : runs.Reachable ⟨startedServer, 0⟩ := .initial ⟨⟨rfl, fun _ => rfl⟩, rfl⟩
  have hone := hstart.step (.round (r := oneReady 3) (fun _ => ⟨by decide, by decide, rfl⟩)
    (round_eq_afterRound (by decide +kernel)))
  have htwo := hone.step (.round (r := { oneReady 3 with connfd := 5 })
    (fun _ => ⟨by decide, by decide +kernel, by decide +kernel⟩)
    (round_eq_afterRound (by decide +kernel)))
  exact htwo.step .hangUp

theorem consistent_changing : Consistent (afterRound twoAccepted changing) := by
  have hstep : Step ⟨twoAccepted, 0⟩ (.round changing) ⟨afterRound twoAccepted changing, 0⟩ :=
    .round (fun _ => ⟨by decide, by decide +kernel, by decide +kernel⟩)
      (round_eq_afterRound (by decide +kernel))
  exact (consistent_iff_accepted (twoAccepted_reachable.step hstep)).2.mpr rfl

/-- The first `accept` fails: one client is counted and none has come, whatever `FD_SET`
makes of -1. -/
theorem consistent_refused : startedServer.pool.n = 0 ∧ ∀ stray : Int → Bool, ∃ s,
    refusedRound startedServer (oneReady 3) stray = some s ∧ runs.Reachable ⟨s, 1⟩ ∧
    s.pool.n = 1 ∧ (∀ fd, (s.sockets fd).isOpen = false) ∧ ¬ Consistent s := by
  refine ⟨rfl, fun stray => ?_⟩
  have hfree : (List.range fdSetsize).find? (fun i => startedServer.pool.clientfd i < 0) =
      some 0 := by decide +kernel
  have hround : ∃ s, refusedRound startedServer (oneReady 3) stray = some s ∧ s.pool.n = 1 ∧
      s.sockets = startedServer.sockets := by
    simp only [refusedRound, addRefused, hfree, Option.bind_eq_bind, Option.bind_some]
    exact ⟨_, rfl, rfl, rfl⟩
  obtain ⟨s, hcall, hn, hsockets⟩ := hround
  have hstart : runs.Reachable ⟨startedServer, 0⟩ := .initial ⟨⟨rfl, fun _ => rfl⟩, rfl⟩
  have hclosed : ∀ fd, (s.sockets fd).isOpen = false := by
    intro fd
    rw [hsockets]
    rfl
  refine ⟨s, hcall, hstart.step (.refused rfl hcall), hn, hclosed, fun hc => ?_⟩
  have hzero := hc.saved.mpr hclosed
  rw [hn] at hzero
  exact absurd hzero one_ne_zero

end SystemSoftware.PoolAccounts
