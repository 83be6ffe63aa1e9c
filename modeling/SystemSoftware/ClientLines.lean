import SystemSoftware.ConversationProgress
import SystemSoftware.TradeDirection
import SystemSoftware.RequestDecoding

/-!
What the clients send. The lines of stockclient are the pieces that Fgets cuts its standard
input into, each up to its first NUL; those of the benchmark clients are composed of random
numbers. A line is whole when it has no NUL and ends in a newline or fills the buffer.
-/
namespace SystemSoftware.ClientLines

open DecimalText RioBuffer RioLines LineStream RioBlocks Transitions
open Conversation ConversationTurns ConversationProgress
open RequestParser RequestTokens RequestDecoding
open TradeDirection (tradeId quantity)
open StockTree (maxline)

section Stdin

/-- What main of stockclient passes to Rio_writen, one text for each Fgets. -/
def stdinLines (stdin : Text) : List Text :=
  (pieces (maxline - 1) stdin).map (·.takeWhile (· ≠ 0))

def Sendable (p : Text) : Prop :=
  0 ∉ p ∧ (p.length = maxline - 1 ∨ p.getLast? = some newline)

instance (p : Text) : Decidable (Sendable p) := inferInstanceAs (Decidable (_ ∧ _))

variable {m : ℕ} {l p s : Text}

/-- Only the last byte of a piece may be a newline. -/
theorem piecesFrom_newline {stored : Text} (hstored : newline ∉ stored) :
    ∀ p ∈ piecesFrom m stored s, newline ∉ p.dropLast := by
  induction s generalizing stored with
  | nil =>
    intro p hp
    rw [piecesFrom] at hp
    split at hp
    · cases hp
    · rw [List.mem_singleton.mp hp]
      exact fun h => hstored (List.mem_of_mem_dropLast h)
  | cons c s ih =>
    intro p hp
    rw [piecesFrom] at hp
    split at hp
    · rcases List.mem_cons.mp hp with rfl | hp
      · rwa [List.dropLast_concat]
      · exact ih List.not_mem_nil p hp
    · next hnot =>
      refine ih (fun h => ?_) p hp
      rcases List.mem_append.mp h with h | h
      · exact hstored h
      · exact hnot (Or.inl (List.mem_singleton.mp h).symm)

/-- A piece is cut as a whole when it ends in a newline or is full. -/
theorem cutLine_self (hnl : newline ∉ p.dropLast) (hle : p.length ≤ m)
    (hend : p.length = m ∨ p.getLast? = some newline) : cutLine m p = some (p, []) := by
  induction p generalizing m with
  | nil =>
    obtain rfl : m = 0 := (hend.resolve_right nofun).symm
    rfl
  | cons c p ih =>
    obtain ⟨m, rfl⟩ := Nat.exists_eq_succ_of_ne_zero (show m ≠ 0 by simp at hle; omega)
    rw [cutLine]
    cases p with
    | nil =>
      split
      · rfl
      · next hc =>
        obtain rfl : m = 0 := by
          rcases hend with hlen | hlast
          · simpa using hlen.symm
          · exact absurd (Option.some.inj hlast) hc
        rfl
    | cons d p =>
      rw [List.dropLast_cons_cons, List.mem_cons, not_or] at hnl
      rw [if_neg (Ne.symm hnl.1), ih hnl.2 (by simpa using hle)
        (hend.imp (fun h => by simpa using h) fun h => by rwa [List.getLast?_cons_cons] at h)]
      rfl

theorem whole_iff (hl : Single l) :
    Whole l ↔ l.length = maxline - 1 ∨ l.getLast? = some newline :=
  ⟨fun h => (cutLine_spec h).2, fun h => cutLine_self hl.1 (by have := hl.2; omega) h⟩

theorem single_of_piece (hp : p ∈ pieces (maxline - 1) s) : Single p := by
  have hlen := pieces_length_le (m := maxline - 1) (by decide) p hp
  exact ⟨piecesFrom_newline List.not_mem_nil p hp, lt_of_le_of_lt hlen (by decide)⟩

/-- What stands in front of a NUL is not whole. -/
theorem not_whole_cut (hp : Single p) (h0 : 0 ∈ p) : ¬ Whole (p.takeWhile (· ≠ 0)) := by
  have hsplit := List.takeWhile_append_dropWhile (p := fun c : UInt8 => c ≠ 0) (l := p)
  have hne : p.dropWhile (· ≠ 0) ≠ [] := fun h => by
    simpa using List.dropWhile_eq_nil_iff.mp h 0 h0
  have hnl : newline ∉ p.takeWhile (· ≠ 0) := fun h => hp.1 (by
    rw [← hsplit, List.dropLast_append_of_ne_nil hne]
    exact List.mem_append_left _ h)
  have hlt : (p.takeWhile (· ≠ 0)).length < maxline - 1 := by
    have hlen := congrArg List.length hsplit
    have hpos := List.length_pos_of_ne_nil hne
    have hle := hp.2
    rw [List.length_append] at hlen
    omega
  intro hwhole
  rcases (cutLine_spec hwhole).2 with hlen | hlast
  · omega
  · exact hnl (List.mem_of_getLast? hlast)

theorem single_cut (hp : Single p) : Single (p.takeWhile (· ≠ 0)) := by
  obtain ⟨t, ht⟩ := List.takeWhile_prefix (fun c : UInt8 => c ≠ 0) (l := p)
  refine ⟨fun h => hp.1 ?_, lt_of_le_of_lt (List.takeWhile_prefix _).length_le hp.2⟩
  rw [← ht]
  by_cases hnil : t = []
  · rwa [hnil, List.append_nil]
  · rw [List.dropLast_append_of_ne_nil hnil]
    exact List.mem_append_left _ (List.mem_of_mem_dropLast h)

theorem cut_of_no_zero (h0 : 0 ∉ p) : p.takeWhile (· ≠ 0) = p :=
  List.takeWhile_eq_self_iff.mpr fun c hc =>
    decide_eq_true fun (h : c = 0) => h0 (h ▸ hc)

theorem whole_cut_iff (hp : Single p) : Whole (p.takeWhile (· ≠ 0)) ↔ Sendable p := by
  by_cases h0 : 0 ∈ p
  · exact ⟨fun h => absurd h (not_whole_cut hp h0), fun h => absurd h0 h.1⟩
  · rw [cut_of_no_zero h0, whole_iff hp]
    exact ⟨fun h => ⟨h0, h⟩, fun h => h.2⟩

theorem stdinLines_single (stdin : Text) : ∀ l ∈ stdinLines stdin, Single l := by
  intro l hl
  obtain ⟨p, hp, rfl⟩ := List.mem_map.mp hl
  exact single_cut (single_of_piece hp)

/-- The lines up to the first that is not whole are the pieces up to the first that cannot
be sent. -/
theorem takeWhile_cut {ps : List Text} (hps : ∀ p ∈ ps, Single p) :
    (ps.map (·.takeWhile (· ≠ 0))).takeWhile (Whole ·) = ps.takeWhile (Sendable ·) := by
  induction ps with
  | nil => rfl
  | cons p ps ih =>
    have hp := whole_cut_iff (hps p List.mem_cons_self)
    by_cases hsend : Sendable p
    · have hcut : (ps.map (·.takeWhile (· ≠ 0))).takeWhile (Whole ·) =
          ps.takeWhile (Sendable ·) := ih fun q hq => hps q (List.mem_cons_of_mem p hq)
      rw [List.map_cons, List.takeWhile_cons_of_pos (by simpa using hp.mpr hsend),
        List.takeWhile_cons_of_pos (by simpa using hsend), hcut, cut_of_no_zero hsend.1]
    · rw [List.map_cons, List.takeWhile_cons_of_neg (by simpa using fun h => hsend (hp.mp h)),
        List.takeWhile_cons_of_neg (by simpa using hsend)]

variable {stdin : Text} {s : State}

/-- How a session of stockclient ends, unless the server exits: the pieces of its input up to
the first that has a NUL, or is the end of the input without a newline, have been requests
and have been answered, and every answer is printed. The client is through exactly when
there is no such piece, and then the requests make up its input; else both sides wait. -/
theorem stockclient_settles
    (hs : ((runs (stdinLines stdin)).guarded fun _ m => m ≠ .exit).Reachable s)
    (hsettled : Settled s) :
    s.served = (pieces (maxline - 1) stdin).takeWhile (Sendable ·) ∧ s.shown = s.replies ∧
      s.printed = s.replies.map fputs ∧ s.replies.length = s.served.length ∧
      (s.client = .finished ↔ ∀ p ∈ pieces (maxline - 1) stdin, Sendable p) ∧
      (s.client = .finished → s.served.flatten = stdin ∧ s.server = .ended) ∧
      (s.client ≠ .finished → s.client = .reading ∧ s.server = .reading) := by
  have hpieces : ∀ p ∈ pieces (maxline - 1) stdin, Single p := fun p => single_of_piece
  obtain ⟨hserved, hshown, hcount, hover, hwait⟩ :=
    steady_settled (reachable_steady (stdinLines_single stdin) hs) hsettled
  have hwhole : (∀ l ∈ stdinLines stdin, Whole l) ↔
      ∀ p ∈ pieces (maxline - 1) stdin, Sendable p := by
    rw [stdinLines, List.forall_mem_map]
    exact forall₂_congr fun p hp => whole_cut_iff (hpieces p hp)
  have hfin : s.client = .finished ↔ ∀ p ∈ pieces (maxline - 1) stdin, Sendable p := by
    rw [← hwhole]
    refine ⟨fun hclient => ?_, fun hall => (hover hall).1⟩
    by_contra hnot
    rw [(hwait hnot).1] at hclient
    cases hclient
  have hprinted := printed_shown (stdinLines_single stdin) hs.of_guarded (hshown ▸ List.prefix_rfl)
  rw [stdinLines, takeWhile_cut hpieces] at hserved
  refine ⟨hserved, hshown.symm, hshown ▸ hprinted, hcount, hfin, fun hclient => ?_, fun hclient => ?_⟩
  · have hall := hfin.mp hclient
    refine ⟨?_, (hover (hwhole.mpr hall)).2⟩
    rw [hserved, List.takeWhile_eq_self_iff.mpr fun p hp => decide_eq_true (hall p hp),
      pieces_flatten]
  · exact hwait fun hall => hclient (hover hall).1

def unended : State where
  todo := []
  asked := [[120]]
  shown := []
  printed := []
  client := .reading
  buf := [120] ++ 0 :: zeroRest [120]
  crio := ⟨[]⟩
  creads := []
  served := []
  replies := []
  server := .reading
  srio := ⟨[]⟩
  sreads := [.data 120 []]
  up := []
  down := []

theorem unended_reachable :
    ((runs (stdinLines [120])).guarded fun _ m => m ≠ .exit).Reachable unended := by
  have hstart : ((runs (stdinLines [120])).guarded fun _ m => m ≠ .exit).Reachable
      (start [[120]]) := .initial rfl
  have hroom : ([120] : Text).length < maxline := by decide
  have hasked := hstart.step ⟨fgets_zeroRest rfl rfl hroom, Move.noConfusion⟩
  refine hasked.perform (?_ : System.perform next (fun _ m => m ≠ .exit) _
    [.send 0, .sent, .read 0] = some unended)
  rfl

theorem unended_settled : Settled unended := by
  have hclient : rioReadnb ⟨[]⟩ maxline [] = none := rfl
  have hserver : rioReadlineb ⟨[]⟩ maxline [.data 120 []] = none := rfl
  intro m hm
  cases m <;> simp_all [next, clientNext, serverNext, unended, State.clientWaits,
    State.serverWaits, chunk, proceeds]

theorem stockclient_settles_unended : unended.served = [] ∧ unended.client = .reading := by
  have h := stockclient_settles unended_reachable unended_settled
  exact ⟨h.1.trans (by decide), (h.2.2.2.2.2.2 (by decide)).1⟩

end Stdin

section Orders

structure Draw where
  option : ℕ
  list : ℕ
  amount : ℕ

def stockNum : ℕ := 10

def buySellMax : ℕ := 10

def Draw.listNum (d : Draw) : Int32 := Int32.ofNat (d.list % stockNum + 1)

def Draw.num (d : Draw) : Int32 := Int32.ofNat (d.amount % buySellMax + 1)

/-- `buf` behind the calls of `strcat`; the numbers go through `tmp`. -/
def tradeText (name : Text) (d : Draw) : Text :=
  name ++ ascii " " ++ printInt d.listNum ++ ascii " " ++ printInt d.num ++ ascii "\n"

def showText : Text := ascii "show\n"

inductive QueryType
  | rand
  | show
  | modify

/-- What the last argument of multiclient_benchmark selects: its words are the other way
round, since `strcmp` is 0 for equal strings. The clients of multiclient order at random. -/
def queryType : Option Text → QueryType
  | none => .rand
  | some w =>
    if w ≠ ascii "show" then .show else if w ≠ ascii "modify" then .modify else .rand

def query (q : QueryType) (d : Draw) : Text :=
  match q with
  | .rand =>
    if d.option % 3 = 0 then showText
    else if d.option % 3 = 1 then tradeText (ascii "buy") d
    else tradeText (ascii "sell") d
  | .show => showText
  | .modify =>
    if d.option % 2 = 0 then tradeText (ascii "buy") d else tradeText (ascii "sell") d

def queries (arg : Option Text) (draws : List Draw) : List Text := draws.map (query (queryType arg))

/-- The request that is meant: the handler of the name, and the two numbers. -/
inductive Meant (q : QueryType) (d : Draw) (cmd : Command) : Prop
  | show (htext : query q d = showText) (hfp : cmd.fp = .show)
  | trade (htext : query q d = tradeText cmd.name d)
      (hcmd : (.intint, cmd.name, cmd.fp) ∈ commandList) (hlist : tradeId cmd = d.listNum)
      (hnum : quantity cmd = d.num)

variable {d : Draw} {q : QueryType} {name : Text} {fp : Handler}

/-- The numbers of an order fit into `tmp` with their terminator, and are tokens. -/
theorem printed_number (n : ℕ) : (printInt (Int32.ofNat (n % 10 + 1))).length < 3 ∧
    printInt (Int32.ofNat (n % 10 + 1)) ≠ [] ∧
      Unbroken (printInt (Int32.ofNat (n % 10 + 1))) ∧ 0 ∉ printInt (Int32.ofNat (n % 10 + 1)) := by
  have hall : ∀ k < 10, (printInt (Int32.ofNat (k + 1))).length < 3 ∧
      printInt (Int32.ofNat (k + 1)) ≠ [] ∧ Unbroken (printInt (Int32.ofNat (k + 1))) ∧
        0 ∉ printInt (Int32.ofNat (k + 1)) := by decide +kernel
  exact hall _ (Nat.mod_lt n (by decide))

theorem atoi_strncpy {x : Int32} (h : 0 ∉ printInt x) : atoi (strncpy (printInt x)) = x := by
  rw [strncpy, cut_of_no_zero h, atoi_printInt]

/-- A line without a newline and a NUL, and its newline. -/
theorem whole_line {l : Text} (hnl : newline ∉ l) (hlen : l.length + 1 < maxline) :
    Single (l ++ [newline]) ∧ Whole (l ++ [newline]) := by
  have hsingle : Single (l ++ [newline]) :=
    ⟨by rwa [List.dropLast_concat], by rwa [List.length_append]⟩
  exact ⟨hsingle, (whole_iff hsingle).mpr (Or.inr List.getLast?_concat)⟩

/-- An order to trade is a line, and the parser finds in it what was meant. -/
theorem trade_meant (hq : query q d = tradeText name d) (hcmd : (.intint, name, fp) ∈ commandList)
    (rc : Int) (hrc : rc ≠ 1) (cmd : Command) (rest : Text) :
    ∃ cmd', parser (query q d ++ 0 :: rest) rc cmd = some (.success, cmd') ∧ Meant q d cmd' := by
  obtain ⟨-, hlist, hlistw, hlist0⟩ := printed_number d.list
  obtain ⟨-, hnum, hnumw, hnum0⟩ := printed_number d.amount
  have hgap : Gap (ascii " ") := ⟨by decide, by decide⟩
  have hnl : blank newline = false := by decide
  have htext : query q d ++ 0 :: rest = name ++ (ascii " " ++ (printInt d.listNum ++
      (ascii " " ++ (printInt d.num ++ ([] ++ newline :: 0 :: rest))))) := by
    rw [hq, tradeText]
    simp only [List.append_assoc, List.nil_append]
    rfl
  have hfirst : Token (printInt d.listNum) := ⟨hlist, hlistw⟩
  have hsecond : Token (printInt d.num) := ⟨hnum, hnumw⟩
  rw [htext, parser_trade hcmd hrc hgap hfirst hgap hsecond
    (fun _ h => absurd h List.not_mem_nil) hnl fun _ => rfl]
  exact ⟨_, rfl, .trade hq hcmd (atoi_strncpy hlist0) (atoi_strncpy hnum0)⟩

theorem show_meant (hq : query q d = showText) (rc : Int) (hrc : rc ≠ 1) (cmd : Command)
    (rest : Text) :
    ∃ cmd', parser (query q d ++ 0 :: rest) rc cmd = some (.success, cmd') ∧ Meant q d cmd' := by
  have hnl : blank newline = false := by decide
  have hcmd : (.noargs, ascii "show", .show) ∈ commandList := List.mem_cons_self
  have htext : query q d ++ 0 :: rest = ascii "show" ++ ([] ++ newline :: 0 :: rest) := by
    rw [hq]
    rfl
  rw [htext, parser_bare hcmd hrc (fun _ h => absurd h List.not_mem_nil) hnl fun _ => rfl]
  exact ⟨_, rfl, .show hq rfl⟩

theorem query_cases (q : QueryType) (d : Draw) : query q d = showText ∨
    ∃ name fp, query q d = tradeText name d ∧ (.intint, name, fp) ∈ commandList := by
  have hbuy : (.intint, ascii "buy", .buy) ∈ commandList := by decide
  have hsell : (.intint, ascii "sell", .sell) ∈ commandList := by decide
  match q with
  | .rand =>
    simp only [query]
    split
    · exact Or.inl rfl
    · split
      · exact Or.inr ⟨_, _, rfl, hbuy⟩
      · exact Or.inr ⟨_, _, rfl, hsell⟩
  | .show => exact Or.inl rfl
  | .modify =>
    simp only [query]
    split
    · exact Or.inr ⟨_, _, rfl, hbuy⟩
    · exact Or.inr ⟨_, _, rfl, hsell⟩

theorem trade_whole (hcmd : (.intint, name, fp) ∈ commandList) (d : Draw) :
    Single (tradeText name d) ∧ Whole (tradeText name d) := by
  have hname : newline ∉ name ∧ name.length ≤ 4 := by
    simp only [commandList, List.mem_cons, Prod.mk.injEq, List.not_mem_nil, or_false] at hcmd
    rcases hcmd with ⟨h, -⟩ | ⟨-, rfl, -⟩ | ⟨-, rfl, -⟩ | ⟨h, -⟩
    · cases h
    · exact ⟨by decide, by decide⟩
    · exact ⟨by decide, by decide⟩
    · cases h
  obtain ⟨hlist, -, hlistw, -⟩ := printed_number d.list
  obtain ⟨hnum, -, hnumw, -⟩ := printed_number d.amount
  have hnone : ∀ {w : Text}, Unbroken w → newline ∉ w := fun hw h =>
    ne_newline_of_unbroken (hw _ h) rfl
  have hblank : newline ∉ ascii " " := by decide
  refine whole_line (l := name ++ ascii " " ++ printInt d.listNum ++ ascii " " ++ printInt d.num)
    ?_ ?_
  · simp only [List.mem_append, not_or]
    exact ⟨⟨⟨⟨hname.1, hblank⟩, hnone hlistw⟩, hblank⟩, hnone hnumw⟩
  · have hone : (ascii " ").length = 1 := rfl
    have hroom : 11 < maxline := by decide
    have hle₁ : (printInt d.listNum).length < 3 := hlist
    have hle₂ : (printInt d.num).length < 3 := hnum
    simp only [List.length_append, hone]
    omega

theorem query_whole (q : QueryType) (d : Draw) : Single (query q d) ∧ Whole (query q d) := by
  rcases query_cases q d with hq | ⟨name, fp, hq, hcmd⟩
  · rw [hq]
    exact whole_line (l := ascii "show") (by decide) (by decide)
  · rw [hq]
    exact trade_whole hcmd d

variable {arg : Option Text} {draws : List Draw} {s : State}

/-- How the session of a benchmark client ends, unless the server exits: whatever is drawn,
every order has been a request of its own and has been answered, and both sides have closed.
Whatever was in the buffer and the command before, the parser finds in each line what was
meant. -/
theorem orders_served (hs : ((runs (queries arg draws)).guarded fun _ m => m ≠ .exit).Reachable s)
    (hsettled : Settled s) :
    s.served = queries arg draws ∧ s.shown = s.replies ∧ s.replies.length = draws.length ∧
      s.client = .finished ∧ s.server = .ended ∧
      ∀ d ∈ draws, ∀ cmd rest, ∃ cmd',
        parser (query (queryType arg) d ++ 0 :: rest) (query (queryType arg) d).length cmd =
          some (.success, cmd') ∧ Meant (queryType arg) d cmd' := by
  have hlines : ∀ l ∈ queries arg draws, Single l ∧ Whole l :=
    List.forall_mem_map.mpr fun d _ => query_whole (queryType arg) d
  obtain ⟨hserved, hshown, hcount, hover, -⟩ :=
    steady_settled (reachable_steady (fun l hl => (hlines l hl).1) hs) hsettled
  obtain ⟨hclient, hserver⟩ := hover fun l hl => (hlines l hl).2
  have hall : s.served = queries arg draws := by
    rw [hserved, List.takeWhile_eq_self_iff.mpr fun l hl => decide_eq_true (hlines l hl).2]
  refine ⟨hall, hshown.symm, ?_, hclient, hserver, fun d _ cmd rest => ?_⟩
  · rw [hcount, hall, queries, List.length_map]
  · have hrc : ((query (queryType arg) d).length : Int) ≠ 1 := by
      rcases query_cases (queryType arg) d with hq | ⟨name, fp, hq, -⟩
      · rw [hq]
        decide
      · have hone : (ascii " ").length = 1 := rfl
        rw [hq, tradeText]
        simp only [List.length_append, hone]
        omega
    rcases query_cases (queryType arg) d with hq | ⟨name, fp, hq, hcmd⟩
    · exact show_meant hq _ hrc cmd rest
    · exact trade_meant hq hcmd _ hrc cmd rest

/-- One order, for which `rand` has returned 4 and then 9 and 19. -/
theorem orders_served_buy : ∃ s : State, s.served = [ascii "buy 10 10\n"] ∧
    s.replies.length = 1 ∧ s.client = .finished := by
  have hquery : queries none [⟨4, 9, 19⟩] = [ascii "buy 10 10\n"] := by decide +kernel
  have hlines : ∀ l ∈ queries none [⟨4, 9, 19⟩], Single l :=
    List.forall_mem_map.mpr fun d _ => (query_whole _ d).1
  obtain ⟨s, hs, hsettled⟩ := exists_settled hlines (.initial rfl)
  obtain ⟨hserved, -, hcount, hclient, -⟩ := orders_served hs hsettled
  exact ⟨s, hserved.trans hquery, hcount, hclient⟩

end Orders

end SystemSoftware.ClientLines
