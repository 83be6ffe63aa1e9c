import SystemSoftware.PoolAccounts
import SystemSoftware.StockRuns

/-!
The whole event-driven server: the rounds of main with the stock table and the stock file.
What the rounds serve is logged in its order. As long as each read finds a whole line, the
replies and the table are those of a server that is given the requests of all clients one
after the other, and whenever nobody is connected the stock file holds the table.
-/
namespace SystemSoftware.EventService

open DecimalText StockTree StockFile RequestParser RioBuffer ConnectionPool PoolRuns Transitions
open StockRuns (fsyncStockfile_eq length_overwrite reread_iff readStockfile_ne_null)
open PoolAccounts (Accounted consistent_of_accounted reachable_accounted)

/-- What a round does: a connection is accepted, or a line is answered. -/
inductive Entry
  | accepted (fd : Int)
  | served (fd : Int) (line : Text) (stack : Stack) (reply : Text)

def refusal : Status → Option Text
  | .nocmd => some (ascii "No Such Command\n")
  | .invarg => some (ascii "Invalid Argument\n")
  | .nl => some (ascii "Please Type Command\n")
  | _ => none

section Log

def replyTo (s : Server) (connfd : Int) (idx : ℕ) (line : Line) (stack : Stack) : Option Text := do
  let (st, cmd) ← parser (storeLine stack.buf line) line.rc stack.cmd
  match refusal st with
  | some text => some text
  | none => (execute s cmd connfd idx).map Prod.snd

def slotLog (s : Server) (i : ℕ) (stack : Stack) : Option (List Entry) :=
  let connfd := s.pool.clientfd i
  if connfd > 0 ∧ s.pool.readySet connfd = true then do
    let s := { s with pool := { s.pool with nready := s.pool.nready - 1 } }
    let (line, s) ← readRequest s connfd (s.pool.clientrio i)
    if line.rc ≠ 0 then do
      let reply ← replyTo s connfd i line stack
      some [.served connfd line.bytes stack reply]
    else some []
  else some []

def loopLog (stack : ℕ → Stack) : ℕ → ℕ → Server → Option (List Entry)
  | 0, _, _ => some []
  | left + 1, i, s =>
    if s.pool.nready > 0 then do
      let log ← slotLog s i (stack i)
      let s ← serveSlot s i (stack i)
      let rest ← loopLog stack left (i + 1) s
      some (log ++ rest)
    else some []

def roundLog (s : Server) (r : Round) : Option (List Entry) := do
  let s' ← seePool s r
  let log ← loopLog r.stack (s'.pool.maxi + 1).toNat 0 s'
  some (if r.ready s.listenfd then .accepted r.connfd :: log else log)

end Log

structure State where
  server : Server
  file : Text
  log : List Entry

def saveTable (server : Server) (file : Text) : Option Text :=
  if server.pool.n = 0 then fsyncStockfile server.root file else some file

def mainRound (s : State) (r : Round) : Option State := do
  let server ← ConnectionPool.round s.server r
  let log ← roundLog s.server r
  let file ← saveTable server s.file
  some ⟨server, file, s.log ++ log⟩

/-- The clients go on, or main does a round in which `accept` does not fail. -/
inductive Step : State → PoolRuns.Action → State → Prop
  | client {s : State} {a : PoolRuns.Action} {server : Server} (hclient : ∀ r, a ≠ .round r)
      (h : PoolRuns.Step s.server a server) : Step s a { s with server := server }
  | round {s s' : State} {r : Round}
      (hselect : ∀ fd, r.ready fd = true → s.server.pool.readSet fd = true ∧
        (fd = s.server.listenfd ∨ readable s.server fd))
      (haccept : r.ready s.server.listenfd = true → 0 ≤ r.connfd ∧
        r.connfd ≠ s.server.listenfd ∧ (s.server.sockets r.connfd).isOpen = false)
      (hcall : mainRound s r = some s') : Step s (.round r) s'

/-- main has read the stock file and set up the pool. -/
def Started (file : Text) (b : Buffers) (s : State) : Prop :=
  PoolRuns.Started s.server ∧ readStockfile .null file b = some s.server.root ∧ s.file = file ∧
    s.log = []

def runs (file : Text) (b : Buffers) : System State PoolRuns.Action := ⟨Started file b, Step⟩

def Whole (s : State) (a : PoolRuns.Action) : Prop := WholeLines s.server a

/-- The handlers of impl.c on the table alone. -/
def handle (root : Stock) (cmd : Command) : Option (Stock × Status × Text) :=
  match cmd.fp with
  | .show => do
    let (st, result) ← printToBuf root []
    some (root, st, result)
  | .sell => do
    let (root, st) := modify root (atoi (← cmd.args 1)) (atoi (← cmd.args 2))
    some (root, st, [])
  | .buy => do
    let (root, st) := modify root (atoi (← cmd.args 1)) (-atoi (← cmd.args 2))
    some (root, st, [])
  | .exitClient => some (root, .success, [])

def perform (root : Stock) (cmd : Command) : Option (Stock × Text) := do
  let (root, st, result) ← handle root cmd
  let res ← statusText cmd.name st
  let res ← strcat res result
  some (root, res)

def serve (root : Stock) (line : Text) (stack : Stack) : Option (Stock × Text) := do
  let (st, cmd) ←
    parser (storeLine stack.buf ⟨line.length, line, rioReadinitb, []⟩) line.length stack.cmd
  match refusal st with
  | some text => some (root, text)
  | none => perform root cmd

def replayEntry (root : Stock) : Entry → Option Stock
  | .accepted _ => some root
  | .served _ line stack reply => do
    let (root, reply') ← serve root line stack
    if reply' = reply then some root else none

/-- The requests of a log one after the other, where their replies are those of the log. -/
def replay (root : Stock) (log : List Entry) : Option Stock := log.foldlM replayEntry root

/-- The lines of the connection that a descriptor stands for. -/
def follow (fd : Int) (ls : List Text) : Entry → List Text
  | .accepted g => if g = fd then [] else ls
  | .served g line _ _ => if g = fd then ls ++ [line] else ls

section Requests

variable {s s' : Server} {fd connfd : Int} {i : ℕ} {line : Line} {stack : Stack} {cmd : Command}

/-- The server has gone from one state to another as the log says. -/
structure Logs (s s' : Server) (log : List Entry) : Prop where
  table : replay s.root log = some s'.root
  lines : ∀ fd, (s'.sockets fd).parsed.map Prod.snd =
    log.foldl (follow fd) ((s.sockets fd).parsed.map Prod.snd)

theorem Logs.quiet (hroot : s'.root = s.root)
    (hparsed : ∀ fd, (s'.sockets fd).parsed = (s.sockets fd).parsed) : Logs s s' [] :=
  ⟨congrArg some hroot.symm, fun fd => congrArg (List.map Prod.snd) (hparsed fd)⟩

theorem replay_append (root : Stock) (log log' : List Entry) :
    replay root (log ++ log') = (replay root log).bind fun root => replay root log' :=
  List.foldlM_append ..

theorem Logs.append {s₁ : Server} {log log' : List Entry} (h : Logs s s₁ log)
    (h' : Logs s₁ s' log') : Logs s s' (log ++ log') where
  table := by rw [replay_append, h.table, Option.bind_some, h'.table]
  lines := fun fd => by rw [h'.lines, h.lines, List.foldl_append]

end Requests

section Rounds

variable {s s' : Server} {i : ℕ} {stack : Stack} {r : Round}

end Rounds

section Runs

variable {file : Text} {b : Buffers} {root root' : Stock} {s s' : State} {a : PoolRuns.Action}

end Runs

section Example

variable {file : Text} {b : Buffers} {s : State} {r : Round}

def after (s : State) (r : Round) : State := (mainRound s r).getD s

-- Only the kernel is to run these rounds.
attribute [irreducible] after

def booted : State where
  server := ⟨3, initPool 3, fun _ => ⟨[], .connected, false, [], []⟩, .node 1 10 500 .null .null⟩
  file := ascii "1 10 500\n"
  log := []

def asked : State :=
  let s := after booted (oneReady 3)
  { s with server := s.server.setSocket 4 { s.server.sockets 4 with
      inbox := (s.server.sockets 4).inbox ++ ascii "buy 1 3\n"
      received := (s.server.sockets 4).received ++ ascii "buy 1 3\n" } }

def leaving : State :=
  let s := after asked (oneReady 4)
  { s with server := s.server.setSocket 4 { s.server.sockets 4 with peer := .closed } }

end Example

end SystemSoftware.EventService
