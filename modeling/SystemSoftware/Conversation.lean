import SystemSoftware.RioBlocks
import SystemSoftware.StockTree
import SystemSoftware.Transitions

/-!
A client and its session, joined by a connection. stockclient sends a line and reads a
block of MAXLINE bytes before it reads the next line; service reads a line and writes a
block. The two run side by side over two streams of bytes, in which every write and read
may be partial or interrupted, and the server may exit at any time. What a request is
answered with is left open: any MAXLINE bytes.
-/
namespace SystemSoftware.Conversation

open DecimalText RioBuffer RioLines LineStream RioBlocks Transitions
open StockTree (maxline)

/-- Where main of stockclient is: before Fgets, in Rio_writen with the bytes that are left,
in rio_readnb, behind Close, or exited by unix_error. -/
inductive ClientPhase
  | prompt
  | writing (rest : Text)
  | reading
  | finished
  | died
  deriving DecidableEq

/-- Where service is: in rio_readlineb, in Rio_writen with the bytes that are left, or gone. -/
inductive ServerPhase
  | reading
  | writing (rest : Text)
  | ended
  deriving DecidableEq

/-- Both sides and the bytes under way. `todo`, `asked`, `shown` and `printed` are the lines
the client will send, those it has passed to Rio_writen, what its calls of rio_readnb have
copied into `buf` and what Fputs has made of `buf`; `served` and `replies` are the lines the
server has read and the blocks it has passed to Rio_writen. The outcomes are those of the
`read` calls of the call under way. -/
structure State where
  todo : List Text
  asked : List Text
  shown : List Text
  printed : List (Option Text)
  client : ClientPhase
  buf : Text
  crio : Rio
  creads : List Outcome
  served : List Text
  replies : List Text
  server : ServerPhase
  srio : Rio
  sreads : List Outcome
  up : Text
  down : Text

/-- Fgets tells what is in `buf` behind the line and its terminator. -/
inductive Move
  | fgets (rest : Text)
  | close
  | send (k : ℕ)
  | sendFails
  | sent
  | receive (k : ℕ)
  | receiveIntr
  | receiveEof
  | receiveError
  | fputs
  | read (k : ℕ)
  | readIntr
  | readEof
  | request (res : Text)
  | hangup
  | write (k : ℕ)
  | written
  | exit
  deriving DecidableEq

def chunk (k : ℕ) (t : Text) : Option (Outcome × Text) :=
  match t.take (k + 1) with
  | c :: r => if k < rioBufsize ∧ k < t.length then some (.data c r, t.drop (k + 1)) else none
  | [] => none

/-- What `fputs` prints: the bytes up to a terminator. Without one in `buf` it goes on
behind `buf`. -/
def fputs (buf : Text) : Option Text :=
  if 0 ∈ buf then some (buf.takeWhile (· ≠ 0)) else none

def State.clientWaits (s : State) : Prop :=
  s.client = .reading ∧ (rioReadnb s.crio maxline s.creads).isNone

def State.serverWaits (s : State) : Prop :=
  s.server = .reading ∧ (rioReadlineb s.srio maxline s.sreads).isNone

instance (s : State) : Decidable s.clientWaits := inferInstanceAs (Decidable (_ ∧ _))

instance (s : State) : Decidable s.serverWaits := inferInstanceAs (Decidable (_ ∧ _))

/-- A move of the client. When the server is gone its bytes go nowhere or the write fails. -/
def clientNext (s : State) : Move → Option State
  | .fgets rest =>
    match s.client, s.todo with
    | .prompt, line :: todo =>
      if line.length + 1 + rest.length = maxline then some { s with
        todo := todo, asked := s.asked ++ [line], client := .writing line
        buf := line ++ 0 :: rest }
      else none
    | _, _ => none
  | .close => if s.client = .prompt ∧ s.todo = [] then some { s with client := .finished } else none
  | .send k =>
    match s.client with
    | .writing rest =>
      if k < rest.length then
        some { s with
          client := .writing (rest.drop (k + 1))
          up := if s.server = .ended then s.up else s.up ++ rest.take (k + 1) }
      else none
    | _ => none
  | .sendFails =>
    match s.client with
    | .writing (_ :: _) => if s.server = .ended then some { s with client := .died } else none
    | _ => none
  | .sent => if s.client = .writing [] then some { s with client := .reading } else none
  | .receive k =>
    if s.clientWaits then
      (chunk k s.down).map fun x => { s with creads := s.creads ++ [x.1], down := x.2 }
    else none
  | .receiveIntr => if s.clientWaits then some { s with creads := s.creads ++ [.eintr] } else none
  | .receiveEof =>
    if s.clientWaits ∧ s.down = [] ∧ s.server = .ended then
      some { s with creads := s.creads ++ [.eof] }
    else none
  | .receiveError =>
    if s.clientWaits ∧ s.down = [] ∧ s.server = .ended then
      some { s with creads := s.creads ++ [.error] }
    else none
  | .fputs =>
    if s.client = .reading then
      (rioReadnb s.crio maxline s.creads).map fun b =>
        -- the return value is not looked at: behind the bytes that came, `buf` is as before
        let buf := b.bytes ++ s.buf.drop b.bytes.length
        { s with
          shown := s.shown ++ [b.bytes], printed := s.printed ++ [fputs buf], client := .prompt
          buf := buf, crio := b.rio, creads := b.outcomes }
    else none
  | _ => none

/-- A move of the server. A request is answered by some block, and a return value of 0
closes the connection. -/
def serverNext (s : State) : Move → Option State
  | .read k =>
    if s.serverWaits then
      (chunk k s.up).map fun x => { s with sreads := s.sreads ++ [x.1], up := x.2 }
    else none
  | .readIntr => if s.serverWaits then some { s with sreads := s.sreads ++ [.eintr] } else none
  | .readEof =>
    if s.serverWaits ∧ s.up = [] ∧ s.client = .finished then
      some { s with sreads := s.sreads ++ [.eof] }
    else none
  | .request res =>
    match s.server, rioReadlineb s.srio maxline s.sreads with
    | .reading, some line =>
      if line.rc ≠ 0 ∧ res.length = maxline then some { s with
        served := s.served ++ [line.bytes], replies := s.replies ++ [res], server := .writing res
        srio := line.rio, sreads := line.outcomes }
      else none
    | _, _ => none
  | .hangup =>
    match s.server, rioReadlineb s.srio maxline s.sreads with
    | .reading, some line => if line.rc = 0 then some { s with server := .ended } else none
    | _, _ => none
  | .write k =>
    match s.server with
    | .writing rest =>
      if k < rest.length then
        some { s with server := .writing (rest.drop (k + 1)), down := s.down ++ rest.take (k + 1) }
      else none
    | _ => none
  | .written => if s.server = .writing [] then some { s with server := .reading } else none
  | .exit => if s.server ≠ .ended then some { s with server := .ended } else none
  | _ => none

def next (s : State) (m : Move) : Option State := (clientNext s m).or (serverNext s m)

/-- A text that Fgets may put into a buffer of MAXLINE bytes. -/
def Single (l : Text) : Prop := newline ∉ l.dropLast ∧ l.length < maxline

/-- rio_readlineb returns when it has read just this. -/
def Whole (l : Text) : Prop := cutLine (maxline - 1) l = some (l, [])

instance (l : Text) : Decidable (Whole l) := inferInstanceAs (Decidable (_ = _))

/-- The connection has been accepted and nothing been sent. What `buf` holds is not looked
at before Fgets has filled it. -/
def start (lines : List Text) : State where
  todo := lines
  asked := []
  shown := []
  printed := []
  client := .prompt
  buf := []
  crio := rioReadinitb
  creads := []
  served := []
  replies := []
  server := .reading
  srio := rioReadinitb
  sreads := []
  up := []
  down := []

def runs (lines : List Text) : System State Move := .ofNext (· = start lines) next

def zeroRest (line : Text) : Text := .replicate (maxline - 1 - line.length) 0

theorem fgets_zeroRest {s : State} {line : Text} {todo : List Text} (hclient : s.client = .prompt)
    (htodo : s.todo = line :: todo) (hline : line.length < maxline) :
    next s (.fgets (zeroRest line)) = some { s with
      todo := todo, asked := s.asked ++ [line], client := .writing line
      buf := line ++ 0 :: zeroRest line } := by
  have hroom : line.length + 1 + (zeroRest line).length = maxline := by
    rw [zeroRest, List.length_replicate]
    omega
  rw [next, clientNext]
  simp only [hclient, htodo, if_pos hroom]
  rfl

section Pieces

variable {m : ℕ} {l r s x : Text}

/-- What a piece is: it ends at a newline or is full. -/
theorem cutLine_spec (h : cutLine m s = some (l, r)) :
    s = l ++ r ∧ (l.length = m ∨ l.getLast? = some newline) := by
  induction m generalizing s l with
  | zero =>
    obtain ⟨rfl, rfl⟩ := Prod.mk.inj (Option.some.inj h)
    exact ⟨rfl, Or.inl rfl⟩
  | succ m ih =>
    cases s with
    | nil => cases h
    | cons c s =>
      rw [cutLine] at h
      split at h
      · next hc =>
        obtain ⟨rfl, rfl⟩ := Prod.mk.inj (Option.some.inj h)
        exact ⟨rfl, Or.inr (by rw [hc]; rfl)⟩
      · obtain ⟨⟨l', r'⟩, hnext, hl⟩ := Option.map_eq_some_iff.mp h
        obtain ⟨rfl, rfl⟩ := Prod.mk.inj hl
        obtain ⟨rfl, hend⟩ := ih hnext
        refine ⟨rfl, hend.imp (fun hm => by rw [List.length_cons, hm]) fun hlast => ?_⟩
        cases l' with
        | nil => cases hlast
        | cons d l' => exact hlast

/-- A beginning of a line has no piece, unless it is the line and the line is whole. -/
theorem cutLine_prefix (hl : Single l) (hx : x <+: l) {a : Text}
    (h : cutLine (maxline - 1) x = some (a, r)) : x = l ∧ a = l ∧ r = [] := by
  obtain ⟨rfl, hend⟩ := cutLine_spec h
  obtain ⟨y, rfl⟩ := hx
  have hnil : r ++ y = [] := by
    by_contra hne
    rcases hend with hlen | hlast
    · have hpos := List.length_pos_of_ne_nil hne
      have hlt := hl.2
      simp only [List.length_append] at hlt hpos
      omega
    · refine hl.1 ?_
      rw [List.append_assoc, List.dropLast_append_of_ne_nil hne]
      exact List.mem_append_left _ (List.mem_of_getLast? hlast)
  obtain ⟨rfl, rfl⟩ := List.append_eq_nil_iff.mp hnil
  simp

end Pieces

end SystemSoftware.Conversation
