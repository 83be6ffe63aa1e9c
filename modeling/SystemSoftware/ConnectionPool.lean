import SystemSoftware.RequestParser
import SystemSoftware.RioBuffer

/-!
The event-driven stock server: network.c and impl.c over a pool of clients and
their sockets. Sockets do not block, so that a `read` with nothing there fails.
What `select` and `accept` answer and what the uninitialised variables hold is
given to each round. Replies are built but not followed on the network; `none`
is an exit of the server, an access outside a buffer or a descriptor set, or a
release of memory that is not allocated.
-/
namespace SystemSoftware.ConnectionPool

open DecimalText StockTree RequestParser RioBuffer

abbrev fdSetsize : ℕ := 1024

/-- The other end of a connection. A peer that closes without having read everything
resets the connection, and one `read` fails with that. -/
inductive Peer
  | connected
  | closed
  | reset
  deriving DecidableEq

/-- A socket: the bytes to be read, the peer, and whether the server has it open.
`received` and `parsed` record what has arrived on it and the calls of `parser`
made for it, each with its byte count and the bytes stored. -/
structure Socket where
  inbox : Text
  peer : Peer
  isOpen : Bool
  received : Text
  parsed : List (Int × Text)
  deriving DecidableEq

structure Pool where
  maxfd : Int
  readSet : Int → Bool
  readySet : Int → Bool
  nready : Int
  n : Int
  maxi : Int
  clientfd : ℕ → Int
  clientrio : ℕ → Rio

structure Server where
  listenfd : Int
  pool : Pool
  sockets : Int → Socket
  root : Stock

def Server.setSocket (s : Server) (fd : Int) (sock : Socket) : Server :=
  { s with sockets := Function.update s.sockets fd sock }

/-- What `buf` and `cmd` hold when an iteration of `write_pool` begins. No vector of
arguments is allocated then. -/
structure Stack where
  buf : Text
  cmd : Command
  args : ArgsPtr
  dead : args ≠ .live

/-- What one round of the main loop meets: the answers of `select` and `accept`,
the bytes that came with the new connection, and the stack at each iteration of
`write_pool`. -/
structure Round where
  ready : Int → Bool
  nready : Int
  connfd : Int
  arrived : Text
  stack : ℕ → Stack

/-- `_pool` is static, so its readers start out empty. -/
def initPool (listenfd : Int) : Pool where
  maxfd := listenfd
  readSet := fun fd => fd = listenfd
  readySet := fun _ => false
  nready := 0
  n := 0
  maxi := -1
  clientfd := fun _ => -1
  clientrio := fun _ => ⟨[]⟩

def fdSet (set : Int → Bool) (fd : Int) : Option (Int → Bool) :=
  if 0 ≤ fd ∧ fd < fdSetsize then some (Function.update set fd true) else none

def addClient (s : Server) (connfd : Int) : Option Server := do
  let p := s.pool
  let i ← (List.range fdSetsize).find? (fun i => p.clientfd i < 0)
  let readSet ← fdSet p.readSet connfd
  let pool := { p with
    nready := p.nready - 1
    clientfd := Function.update p.clientfd i connfd
    clientrio := Function.update p.clientrio i rioReadinitb
    readSet := readSet
    maxfd := max p.maxfd connfd
    maxi := max p.maxi i
    n := p.n + 1 }
  some { s with pool := pool }

def chunks : ℕ → Text → List Outcome
  | 0, _ => []
  | _, [] => []
  | fuel + 1, c :: r => .data c (r.take (rioBufsize - 1)) :: chunks fuel (r.drop (rioBufsize - 1))

/-- What the `read` calls on a socket return, up to the first without bytes; on a
closed descriptor that is the first of all. -/
def readOutcomes (sock : Socket) : List Outcome :=
  let inbox := chunks sock.inbox.length sock.inbox
  if sock.isOpen then inbox ++ [if sock.peer = .closed then .eof else .error]
  else .error :: inbox

def leftover (outcomes : List Outcome) : Text :=
  outcomes.flatMap fun o =>
    match o with
    | .data c r => c :: r
    | _ => []

/-- `remove_client`, which fails with its `close`. -/
def removeClient (s : Server) (connfd : Int) (idx : ℕ) : Server × Int :=
  if (s.sockets connfd).isOpen then
    let s := s.setSocket connfd { s.sockets connfd with isOpen := false }
    let pool := { s.pool with
      readSet := Function.update s.pool.readSet connfd false
      clientfd := Function.update s.pool.clientfd idx (-1)
      n := s.pool.n - 1 }
    ({ s with pool := pool }, 1)
  else (s, -1)

/-- The handlers of impl.c, with the status and `cmd->result`. -/
def runHandler (s : Server) (cmd : Command) (connfd : Int) (idx : ℕ) :
    Option (Server × Status × Text) :=
  match cmd.fp with
  | .show => do
    let (st, result) ← printToBuf s.root []
    some (s, st, result)
  | .sell => do
    let (root, st) := modify s.root (atoi (← cmd.args 1)) (atoi (← cmd.args 2))
    some ({ s with root := root }, st, [])
  | .buy => do
    let (root, st) := modify s.root (atoi (← cmd.args 1)) (-atoi (← cmd.args 2))
    some ({ s with root := root }, st, [])
  | .exitClient =>
    let (s, r) := removeClient s connfd idx
    some (s, if r ≠ 0 then .success else .error, [])

/-- The text in `res` before `cmd.result` is appended. -/
def statusText (name : Text) : Status → Option Text
  | .success => do
    strcat (← strcat (ascii "\x1b[0m[") name) (ascii "]\x1b[0;32msuccess\n\x1b[0m")
  | .error => do strcat (← strcat (ascii "\x1b[0m[") name) (ascii "] failed\n")
  | .notenougherr => some (ascii "NOT ENOUGH LEFT STOCK\n")
  | _ => strcat (ascii "\x1b[0m[") name

def execute (s : Server) (cmd : Command) (connfd : Int) (idx : ℕ) : Option (Server × Text) := do
  let (s, st, result) ← runHandler s cmd connfd idx
  let res ← statusText cmd.name st
  let res ← strcat res result
  some (s, res)

/-- The receive buffer after a line is stored; a failed read leaves no terminator. -/
def storeLine (buf : Text) (line : Line) : Text :=
  if line.rc < 0 then line.bytes ++ buf.drop line.bytes.length
  else line.bytes ++ 0 :: buf.drop (line.bytes.length + 1)

/-- `rio_readlineb` on a copy of the client's reader: only the socket keeps what it read.
A reset is reported once. -/
def readRequest (s : Server) (connfd : Int) (rio : Rio) : Option (Line × Server) := do
  let sock := s.sockets connfd
  let line ← rioReadlineb rio maxline (readOutcomes sock)
  some (line, s.setSocket connfd { sock with
    inbox := leftover line.outcomes
    peer := if line.rc < 0 ∧ sock.peer = .reset then .closed else sock.peer })

def freeArgs (args : ArgsPtr) (argc : ℕ) : Option Unit :=
  if Freeable args argc then some () else none

def reply (s : Server) (cmd : Command) (connfd : Int) (idx : ℕ) : Status → Option Server
  | .nocmd | .invarg | .nl => some s
  | _ => (execute s cmd connfd idx).map Prod.fst

/-- What `write_pool` does with the result of `rio_readlineb`. The parser allocates unless
`rc` is 1, and `free_args` is called all the same. -/
def answer (s : Server) (connfd : Int) (idx : ℕ) (line : Line) (stack : Stack) :
    Option Server := do
  if line.rc ≠ 0 then
    let sock := s.sockets connfd
    let s := s.setSocket connfd { sock with parsed := sock.parsed ++ [(line.rc, line.bytes)] }
    let (st, cmd) ← parser (storeLine stack.buf line) line.rc stack.cmd
    let s ← reply s cmd connfd idx st
    freeArgs (if line.rc = 1 then stack.args else .live) cmd.argc
    some s
  else some (removeClient s connfd idx).1

def serveSlot (s : Server) (i : ℕ) (stack : Stack) : Option Server :=
  let connfd := s.pool.clientfd i
  if connfd > 0 ∧ s.pool.readySet connfd = true then do
    let s := { s with pool := { s.pool with nready := s.pool.nready - 1 } }
    let (line, s) ← readRequest s connfd (s.pool.clientrio i)
    answer s connfd i line stack
  else some s

def writeLoop (stack : ℕ → Stack) : ℕ → ℕ → Server → Option Server
  | 0, _, s => some s
  | left + 1, i, s =>
    if s.pool.nready > 0 then do
      let s ← serveSlot s i (stack i)
      writeLoop stack left (i + 1) s
    else some s

def writePool (s : Server) (stack : ℕ → Stack) : Option Server :=
  writeLoop stack (s.pool.maxi + 1).toNat 0 s

def seePool (s : Server) (r : Round) : Option Server :=
  let s := { s with pool := { s.pool with readySet := r.ready, nready := r.nready } }
  if r.ready s.listenfd then
    addClient (s.setSocket r.connfd ⟨r.arrived, .connected, true, r.arrived, []⟩) r.connfd
  else some s

def round (s : Server) (r : Round) : Option Server := do
  let s ← seePool s r
  writePool s r.stack

end SystemSoftware.ConnectionPool
