import SystemSoftware.ConnectionPool
import SystemSoftware.StockMap

/-!
Which way a trade moves the stock. `buy` and `sell` add a signed number to the
count, and `modify` looks at the sum alone, so a quantity below zero turns the
trade around wherever the sum is still a count.
-/
namespace SystemSoftware.TradeDirection

open DecimalText StockTree StockMap RequestParser ConnectionPool

def tradeId (cmd : Command) : Int32 := atoi ((cmd.args 1).getD [])

def quantity (cmd : Command) : Int32 := atoi ((cmd.args 2).getD [])

def change (cmd : Command) : ℤ :=
  if cmd.fp = .buy then -(quantity cmd).toInt else (quantity cmd).toInt

/-- After a reply of success a buy has increased and a sell has decreased no count. -/
def Directed (s : Server) (cmd : Command) (connfd : Int) (idx : ℕ) : Prop :=
  ∀ s' result, runHandler s cmd connfd idx = some (s', .success, result) →
    ∀ path r, recordAt path s.root = some r →
      ∃ count, recordAt path s'.root = some (r.1, count, r.2.2) ∧
        (cmd.fp = .buy → count ≤ r.2.1) ∧ (cmd.fp = .sell → r.2.1 ≤ count)

def Refused (t : Stock) (cmd : Command) : Prop :=
  ∀ r, lookup (tradeId cmd) t = some r →
    ¬ (0 ≤ r.2.1.toInt + change cmd ∧ r.2.1.toInt + change cmd ≤ 2 ^ 31 - 1)

def delta (cmd : Command) : Int32 := if cmd.fp = .buy then -quantity cmd else quantity cmd

section Trade

variable {s : Server} {cmd : Command}

/-- The handlers of trades call `modify` once. -/
theorem runHandler_trade (htrade : cmd.fp = .sell ∨ cmd.fp = .buy)
    (hargs : ∃ a b, cmd.args 1 = some a ∧ cmd.args 2 = some b) (connfd : Int) (idx : ℕ) :
    runHandler s cmd connfd idx = some ({ s with
      root := (modify s.root (tradeId cmd) (delta cmd)).1 },
      (modify s.root (tradeId cmd) (delta cmd)).2, []) := by
  obtain ⟨a, b, ha, hb⟩ := hargs
  rcases htrade with hfp | hfp <;>
    simp [runHandler, tradeId, delta, quantity, hfp, ha, hb]

/-- Only the least int is its own negative. -/
theorem delta_toInt (cmd : Command) : (delta cmd).toInt = change cmd ∨
    ((delta cmd).toInt = -2 ^ 31 ∧ change cmd = 2 ^ 31) := by
  have hlo := (quantity cmd).le_toInt
  have hhi := (quantity cmd).toInt_lt
  unfold delta change
  split
  · rw [Int32.toInt_neg, Int.bmod]
    split <;> omega
  · exact Or.inl rfl

/-- Taking the least int for its negative makes no difference to what is refused. -/
theorem delta_range {count : Int32} (hcount : 0 ≤ count) :
    (0 ≤ count.toInt + (delta cmd).toInt ∧ count.toInt + (delta cmd).toInt ≤ 2 ^ 31 - 1) ↔
      0 ≤ count.toInt + change cmd ∧ count.toInt + change cmd ≤ 2 ^ 31 - 1 := by
  have hmax := count.toInt_lt
  have hzero : (0 : Int32).toInt = 0 := rfl
  rw [Int32.le_iff_toInt_le, hzero] at hcount
  have hdelta := delta_toInt cmd
  omega

/-- `modify` refuses the trade, or adds the difference to the count that `find` meets. -/
theorem trade_cases (hs : Stocked s.root) (cmd : Command) :
    (Refused s.root cmd ∧ (modify s.root (tradeId cmd) (delta cmd)).2 ≠ .success) ∨
      ∃ id count price count', lookup (tradeId cmd) s.root = some (id, count, price) ∧
        count'.toInt = count.toInt + change cmd ∧ ¬ Refused s.root cmd ∧
        modify s.root (tradeId cmd) (delta cmd) =
          (setCount (tradeId cmd) count' s.root, .success) := by
  have heq := modify_eq s.root (tradeId cmd) (delta cmd)
  cases hlook : lookup (tradeId cmd) s.root with
  | none =>
    rw [hlook] at heq
    refine Or.inl ⟨fun r hr => ?_, ?_⟩
    · rw [hlook] at hr
      cases hr
    · rw [heq]
      exact nofun
  | some r =>
    obtain ⟨id, count, price⟩ := r
    have hcount : 0 ≤ count := stocked_lookup hs hlook
    simp only [hlook] at heq
    by_cases hlt : count + delta cmd < 0
    · rw [if_pos hlt] at heq
      refine Or.inl ⟨fun r hr hin => ?_, ?_⟩
      · obtain rfl := Option.some.inj (hlook.symm.trans hr)
        exact (add_nonneg_iff hcount).mpr ((delta_range hcount).mpr hin) hlt
      · rw [heq]
        exact nofun
    · rw [if_neg hlt] at heq
      have hin := (add_nonneg_iff hcount).mp hlt
      have hin' := (delta_range hcount).mp hin
      have hsum : (count + delta cmd).toInt = count.toInt + change cmd := by
        have hdelta := delta_toInt cmd
        have hmax := count.toInt_lt
        rw [toInt_add_of_range hin.1 hin.2]
        omega
      exact Or.inr ⟨id, count, price, _, rfl, hsum, fun h => h _ hlook hin', heq⟩

/-- Where the trade goes through, its direction is that of the difference added. -/
theorem directed_of_success {id count price count' : Int32}
    (hargs : ∃ a b, cmd.args 1 = some a ∧ cmd.args 2 = some b)
    (htrade : cmd.fp = .sell ∨ cmd.fp = .buy)
    (hlook : lookup (tradeId cmd) s.root = some (id, count, price))
    (hmodify : modify s.root (tradeId cmd) (delta cmd) =
      (setCount (tradeId cmd) count' s.root, .success)) (connfd : Int) (idx : ℕ) :
    Directed s cmd connfd idx ↔
      (cmd.fp = .buy → count' ≤ count) ∧ (cmd.fp = .sell → count ≤ count') := by
  rw [Directed, runHandler_trade htrade hargs, hmodify]
  constructor
  · intro h
    obtain ⟨count₁, hrec, hdir⟩ := h _ _ rfl _ _ hlook
    rw [recordAt_setCount, if_pos rfl, show recordAt (pathOf _ s.root) s.root = _ from hlook]
      at hrec
    obtain rfl : count' = count₁ := by simpa using hrec
    exact hdir
  · intro h s' result hrun path r hr
    obtain ⟨rfl, -⟩ := Prod.mk.inj (Option.some.inj hrun)
    simp only [recordAt_setCount]
    by_cases hpath : path = pathOf (tradeId cmd) s.root
    · obtain rfl := Option.some.inj (hlook.symm.trans (hpath ▸ hr))
      exact ⟨count', by rw [if_pos hpath, hr, Option.map_some], h⟩
    · exact ⟨r.2.1, by rw [if_neg hpath, hr], fun _ => Int32.le_refl _, fun _ => Int32.le_refl _⟩

theorem trade_args {buf : Text} {rc : Int} {cmd' : Command}
    (hparser : parser buf rc cmd = some (.success, cmd'))
    (htrade : cmd'.fp = .sell ∨ cmd'.fp = .buy) :
    ∃ a b, cmd'.args 1 = some a ∧ cmd'.args 2 = some b := by
  have hsel : Selected cmd' := by
    rcases parser_decoded hparser with h | h | h | ⟨-, h⟩
    · cases h
    · cases h
    · cases h
    · exact h
  rcases hsel.cases with ⟨hfp, -⟩ | ⟨-, hflag, -⟩ | ⟨hfp, -⟩
  · rw [hfp] at htrade
    exact absurd htrade nofun
  · exact hsel.args hflag
  · rw [hfp] at htrade
    exact absurd htrade nofun

end Trade

/-- A trade goes its way unless its quantity is negative and the sum is a count all the same. -/
theorem directed_iff {s : Server} {buf : Text} {rc : Int} {cmd cmd' : Command}
    (hs : Stocked s.root) (hparser : parser buf rc cmd = some (.success, cmd'))
    (htrade : cmd'.fp = .sell ∨ cmd'.fp = .buy) (connfd : Int) (idx : ℕ) :
    Directed s cmd' connfd idx ↔ 0 ≤ quantity cmd' ∨ Refused s.root cmd' := by
  have hargs := trade_args hparser htrade
  rcases trade_cases hs cmd' with
    ⟨hrefused, hfail⟩ | ⟨id, count, price, count', hlook, hsum, hnot, hmodify⟩
  · refine iff_of_true (fun s' result hrun => ?_) (Or.inr hrefused)
    rw [runHandler_trade htrade hargs] at hrun
    exact absurd (Prod.mk.inj (Prod.mk.inj (Option.some.inj hrun)).2).1 hfail
  · rw [directed_of_success hargs htrade hlook hmodify, or_iff_left hnot]
    simp only [Int32.le_iff_toInt_le, hsum]
    have hzero : (0 : Int32).toInt = 0 := rfl
    rcases htrade with hfp | hfp <;> simp [hfp, change]

def stockedServer : Server :=
  ⟨3, initPool 3, fun _ => ⟨[], .connected, false, [], []⟩, .node 1 10 5 .null .null⟩

theorem stockedServer_stocked : Stocked stockedServer.root := by
  intro path r hr
  cases path with
  | nil =>
    obtain rfl := Option.some.inj hr
    decide
  | cons turn path => cases turn <;> cases path <;> cases hr

def request (line : Text) : Command :=
  ((parser line line.length clearCommand).map Prod.snd).getD clearCommand

theorem directed_iff_buy : Directed stockedServer (request (ascii "buy 1 5\n")) 4 0 ↔
    0 ≤ quantity (request (ascii "buy 1 5\n")) ∨
      Refused stockedServer.root (request (ascii "buy 1 5\n")) :=
  have hparser : parser (ascii "buy 1 5\n") 8 clearCommand =
      some (.success, request (ascii "buy 1 5\n")) := rfl
  directed_iff stockedServer_stocked hparser (Or.inr rfl) 4 0

/-- Buying five pieces less than none leaves five more. -/
theorem directed_negative : Stocked stockedServer.root ∧
    (parser (ascii "buy 1 -5\n") 9 clearCommand).map Prod.fst = some .success ∧
    (request (ascii "buy 1 -5\n")).fp = .buy ∧
    (runHandler stockedServer (request (ascii "buy 1 -5\n")) 4 0).map (fun r => (r.1.root, r.2.1)) =
      some (.node 1 15 5 .null .null, .success) ∧
    ¬ Directed stockedServer (request (ascii "buy 1 -5\n")) 4 0 := by
  have hrun : (runHandler stockedServer (request (ascii "buy 1 -5\n")) 4 0).map
      (fun r => (r.1.root, r.2)) = some (.node 1 15 5 .null .null, .success, []) := by decide
  have hstatus := congrArg (Option.map fun r => (r.1, r.2.1)) hrun
  rw [Option.map_map] at hstatus
  refine ⟨stockedServer_stocked, by decide, by decide, hstatus, fun h => ?_⟩
  obtain ⟨⟨s', r⟩, hsome, hr⟩ := Option.map_eq_some_iff.mp hrun
  obtain ⟨hroot, rfl⟩ := Prod.mk.inj hr
  obtain ⟨count, hcount, hbuy, -⟩ := h s' [] hsome [] (1, 10, 5) rfl
  rw [hroot] at hcount
  obtain rfl : (15 : Int32) = count := by simpa [recordAt] using hcount
  exact absurd (hbuy (by decide)) (by decide)

end SystemSoftware.TradeDirection
