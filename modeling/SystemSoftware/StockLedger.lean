import SystemSoftware.StockMap
import SystemSoftware.StockThreads
import SystemSoftware.ThreadTally
import Mathlib.Data.Int.ModEq

/-!
Threads that call `modify` of the thread-based stock server over and over. A
ledger lists the calls that have returned. The mutex of a node makes reading
and writing its count one step, so that each count is the first one with the
successful calls of the ledger added, and those whose update is made but which
have not yet returned.
-/
namespace SystemSoftware.StockLedger

open StockTree StockMap StockThreads Transitions ThreadTally

/-- A thread outside `modify`, or the call that it is in and where it is there. -/
abbrev Thread := Option (Trade × ModifyPc)

structure State (ι : Type) where
  stocks : Stocks
  threads : ι → Thread
  returned : List (Trade × Status)

inductive Action (ι : Type)
  | call (i : ι) (trade : Trade)
  | step (i : ι)
  | ret (i : ι)

def bare : Stock → Stock
  | .null => .null
  | .node id _ price left right => .node id 0 price (bare left) (bare right)

def earned (returned : List (Trade × Status)) (id : Int32) : ℤ :=
  (returned.map fun c => if c.1.1 = id ∧ c.2 = .success then c.1.2.toInt else 0).sum

/-- The update that a thread has made in a call from which it has not returned. -/
def inFlight (id : Int32) : Thread → ℤ
  | some ((i, delta), .post _) => if i = id then delta.toInt else 0
  | some ((i, delta), .done .success) => if i = id then delta.toInt else 0
  | _ => 0

def Holds (id : Int32) : Thread → Bool
  | some (_, .read i _ _) | some (_, .write i _ _) | some (_, .post i) => i = id
  | _ => false

def Serves : Thread → Prop
  | some (trade, .find id delta) | some (trade, .test id delta) | some (trade, .wait id delta _)
  | some (trade, .read id delta _) | some (trade, .write id delta _) => trade = (id, delta)
  | some (trade, .post id) => trade.1 = id
  | _ => True

def Fresh (root : Stock) : Thread → Prop
  | some (_, .write id _ count) => countOf id root = some count
  | _ => True

section Runs

variable {ι : Type} [DecidableEq ι]

def next (s : State ι) : Action ι → Option (State ι)
  | .call i trade =>
    match s.threads i with
    | none =>
      some { s with
        threads := Function.update s.threads i (some (trade, .find trade.1 trade.2)) }
    | some _ => none
  | .step i => do
    let (trade, pc) ← s.threads i
    let (stocks, pc) ← pc.next s.stocks
    some { s with stocks := stocks, threads := Function.update s.threads i (some (trade, pc)) }
  | .ret i =>
    match s.threads i with
    | some (trade, .done st) =>
      some { s with
        threads := Function.update s.threads i none
        returned := s.returned ++ [(trade, st)] }
    | _ => none

def Started (t₀ : Stock) (s : State ι) : Prop :=
  s.stocks.root = t₀ ∧ (∀ id, s.stocks.modifyMutex id = 1) ∧ (∀ i, s.threads i = none) ∧
    s.returned = []

def runs (t₀ : Stock) : System (State ι) (Action ι) := System.ofNext (Started t₀) next

end Runs

section Table

theorem bare_setCount (id count : Int32) (t : Stock) : bare (setCount id count t) = bare t := by
  induction t with
  | null => rfl
  | node i c p left right ihl ihr =>
    unfold setCount
    split
    · rfl
    split
    · rw [bare, bare, ihr]
    · rw [bare, bare, ihl]

theorem pathOf_bare (id : Int32) (t : Stock) : pathOf id (bare t) = pathOf id t := by
  induction t with
  | null => rfl
  | node i c p left right ihl ihr => rw [bare, pathOf, pathOf, ihl, ihr]

theorem countOf_eq_lookup (id : Int32) (t : Stock) :
    countOf id t = (lookup id t).map fun r => r.2.1 := by
  rw [lookup_eq_find, countOf]
  cases find id t <;> rfl

theorem countOf_setCount_of_ne {i id count : Int32} (hne : i ≠ id) (t : Stock) :
    countOf i (setCount id count t) = countOf i t := by
  rw [countOf_eq_lookup, countOf_eq_lookup, lookup_setCount, if_neg hne]

end Table

/-- What a step of a thread inside `modify` does: the node's mutex is handed on,
the count that it has read is the one in the table, and the table changes by the
update that the thread makes. -/
structure Effect (trade : Trade) (s : Stocks) (pc : ModifyPc) (s' : Stocks) (pc' : ModifyPc) :
    Prop where
  held : ∀ id, (s'.modifyMutex id : ℤ) + part (Holds id · = true) (some (trade, pc')) =
    s.modifyMutex id + part (Holds id · = true) (some (trade, pc))
  serves : Serves (some (trade, pc'))
  fresh : Fresh s'.root (some (trade, pc'))
  moved : (s'.root = s.root ∧ ∀ id, inFlight id (some (trade, pc')) = inFlight id (some (trade, pc))) ∨
    ∃ count, pc = .write trade.1 trade.2 count ∧ pc' = .post trade.1 ∧
      s'.root = setCount trade.1 (count + trade.2) s.root

theorem next_effect {trade : Trade} {s s' : Stocks} {pc pc' : ModifyPc} (hserves : Serves (some (trade, pc)))
    (h : pc.next s = some (s', pc')) : Effect trade s pc s' pc' := by
  obtain ⟨i, d⟩ := trade
  cases pc with
  | find id delta =>
    simp only [ModifyPc.next] at h
    split at h
    · obtain ⟨rfl, rfl⟩ := Prod.mk.inj (Option.some.inj h)
      exact ⟨fun _ => rfl, trivial, trivial, Or.inl ⟨rfl, fun _ => rfl⟩⟩
    · obtain ⟨rfl, rfl⟩ := Prod.mk.inj (Option.some.inj h)
      exact ⟨fun _ => rfl, hserves, trivial, Or.inl ⟨rfl, fun _ => rfl⟩⟩
  | test id delta =>
    obtain ⟨count, hcount, h⟩ := Option.bind_eq_some_iff.mp h
    by_cases hlt : count + delta < 0
    · rw [if_pos hlt] at h
      obtain ⟨rfl, rfl⟩ := Prod.mk.inj (Option.some.inj h)
      exact ⟨fun _ => rfl, trivial, trivial, Or.inl ⟨rfl, fun _ => rfl⟩⟩
    · rw [if_neg hlt] at h
      obtain ⟨rfl, rfl⟩ := Prod.mk.inj (Option.some.inj h)
      exact ⟨fun _ => rfl, hserves, trivial, Or.inl ⟨rfl, fun _ => rfl⟩⟩
  | wait id delta seen =>
    simp only [ModifyPc.next] at h
    split at h
    · rename_i hpos
      obtain ⟨rfl, rfl⟩ := Prod.mk.inj (Option.some.inj h)
      refine ⟨fun j => ?_, hserves, trivial, Or.inl ⟨rfl, fun _ => rfl⟩⟩
      by_cases hj : j = id
      · subst hj
        simp only [Function.update_self, part, Holds]
        simp
        omega
      · simp [Function.update_of_ne hj, part, Holds, Ne.symm hj]
    · cases h
  | read id delta seen =>
    obtain ⟨count, hcount, h⟩ := Option.bind_eq_some_iff.mp h
    obtain ⟨rfl, rfl⟩ := Prod.mk.inj (Option.some.inj h)
    exact ⟨fun _ => rfl, hserves, hcount, Or.inl ⟨rfl, fun _ => rfl⟩⟩
  | write id delta count =>
    obtain ⟨rfl, rfl⟩ := Prod.mk.inj (Option.some.inj h)
    obtain ⟨rfl, rfl⟩ := Prod.mk.inj hserves
    exact ⟨fun _ => rfl, rfl, trivial, Or.inr ⟨count, rfl, rfl, rfl⟩⟩
  | post id =>
    obtain ⟨rfl, rfl⟩ := Prod.mk.inj (Option.some.inj h)
    refine ⟨fun j => ?_, trivial, trivial, Or.inl ⟨rfl, fun _ => rfl⟩⟩
    by_cases hj : j = id
    · subst hj
      simp [part, Holds]
    · simp [Function.update_of_ne hj, part, Holds, Ne.symm hj]
  | done st => cases h

section Ledger

variable {ι : Type} [Fintype ι] [DecidableEq ι] {t₀ : Stock} {s s' : State ι} {i : ι} {trade : Trade}

/-- What has been added to an id, by calls that have returned or are about to. -/
def booked (s : State ι) (id : Int32) : ℤ :=
  earned s.returned id + total (inFlight id) s.threads

structure Ledger (t₀ : Stock) (s : State ι) : Prop where
  table : bare s.stocks.root = bare t₀
  exclusive : ∀ id, (s.stocks.modifyMutex id : ℤ) + tally (Holds id · = true) s.threads = 1
  serves : ∀ i, Serves (s.threads i)
  fresh : ∀ i, Fresh s.stocks.root (s.threads i)
  balance : ∀ path r, recordAt path s.stocks.root = some r → ∃ r₀, recordAt path t₀ = some r₀ ∧
    r.2.1.toInt ≡ r₀.2.1.toInt + if path = pathOf r.1 t₀ then booked s r.1 else 0 [ZMOD 2 ^ 32]

omit [DecidableEq ι] in
theorem ledger_started (hs : Started t₀ s) : Ledger t₀ s := by
  obtain ⟨rfl, hmutex, hthreads, hreturned⟩ := hs
  have hbooked : ∀ id, booked s id = 0 := by
    intro id
    rw [booked, hreturned, total_eq_zero]
    · rfl
    · intro i
      rw [hthreads i]
      rfl
  refine ⟨rfl, fun id => ?_, fun i => ?_, fun i => ?_, fun path r hr => ⟨r, hr, ?_⟩⟩
  · rw [hmutex, tally_eq_zero]
    · rfl
    · intro i
      rw [hthreads i]
      exact Bool.false_ne_true
  · rw [hthreads i]
    trivial
  · rw [hthreads i]
    trivial
  · rw [hbooked, ite_self, add_zero]

/-- A step that moves one thread and leaves the table alone. -/
theorem Ledger.move (hs : Ledger t₀ s) {x : Thread} {stocks : Stocks} {returned : List (Trade × Status)}
    (hroot : stocks.root = s.stocks.root)
    (hheld : ∀ id, (stocks.modifyMutex id : ℤ) + part (Holds id · = true) x =
      s.stocks.modifyMutex id + part (Holds id · = true) (s.threads i))
    (hserves : Serves x) (hfresh : Fresh stocks.root x)
    (hbooked : ∀ id, earned returned id + inFlight id x =
      earned s.returned id + inFlight id (s.threads i)) :
    Ledger t₀ ⟨stocks, Function.update s.threads i x, returned⟩ := by
  refine ⟨?_, fun id => ?_, ?_, ?_, fun path r hr => ?_⟩
  · exact (congrArg bare hroot).trans hs.table
  · have hold := hs.exclusive id
    have hnew := hheld id
    simp only [tally_update]
    omega
  · exact (Function.forall_update_iff _ fun _ => Serves).mpr ⟨hserves, fun j _ => hs.serves j⟩
  · exact (Function.forall_update_iff _ fun _ => Fresh stocks.root).mpr
      ⟨hfresh, fun j _ => hroot ▸ hs.fresh j⟩
  · simp only [hroot] at hr
    obtain ⟨r₀, hr₀, hcount⟩ := hs.balance path r hr
    have hsame : booked ⟨stocks, Function.update s.threads i x, returned⟩ r.1 = booked s r.1 := by
      have := hbooked r.1
      simp only [booked, total_update]
      omega
    exact ⟨r₀, hr₀, hsame ▸ hcount⟩

theorem toInt_add_modEq (a b : Int32) : (a + b).toInt ≡ a.toInt + b.toInt [ZMOD 2 ^ 32] := by
  rw [Int32.toInt_add]
  exact Int.bmod_emod

/-- Two threads never hold the mutex of one node, so that an update leaves the
counts that other threads have read as they are. -/
theorem Ledger.fresh_of_ne (hs : Ledger t₀ s) {id count : Int32} {j : ι} (hne : j ≠ i)
    (hi : Holds id (s.threads i) = true) : Fresh (setCount id count s.stocks.root) (s.threads j) := by
  have hfresh := hs.fresh j
  rcases hthread : s.threads j with - | ⟨trade, pc⟩
  · trivial
  rw [hthread] at hfresh
  cases pc with
  | write k d c =>
    have hid : k ≠ id := by
      rintro rfl
      have hle : tally (Holds k · = true) s.threads ≤ 1 := by
        have := hs.exclusive k
        omega
      refine hne (eq_of_tally_le_one hle ?_ hi)
      rw [hthread]
      exact decide_eq_true rfl
    exact (countOf_setCount_of_ne hid _).trans hfresh
  | _ => trivial

/-- The update of the count that the thread has read. -/
theorem Ledger.update (hs : Ledger t₀ s) {count : Int32}
    (hi : s.threads i = some (trade, .write trade.1 trade.2 count)) :
    Ledger t₀ ⟨{ s.stocks with root := setCount trade.1 (count + trade.2) s.stocks.root },
      Function.update s.threads i (some (trade, .post trade.1)), s.returned⟩ := by
  obtain ⟨id, delta⟩ := trade
  have hholds : Holds id (s.threads i) = true := by
    rw [hi]
    exact decide_eq_true rfl
  have hcount : countOf id s.stocks.root = some count := by
    have := hs.fresh i
    rw [hi] at this
    exact this
  have hpath : ∀ j, pathOf j s.stocks.root = pathOf j t₀ := by
    intro j
    rw [← pathOf_bare, hs.table, pathOf_bare]
  have hbooked : ∀ j, booked ⟨{ s.stocks with root := setCount id (count + delta) s.stocks.root },
      Function.update s.threads i (some ((id, delta), .post id)), s.returned⟩ j =
      booked s j + if id = j then delta.toInt else 0 := by
    intro j
    simp only [booked, total_update, hi, inFlight]
    omega
  refine ⟨?_, fun j => ?_, ?_, ?_, fun path r hr => ?_⟩
  · exact (bare_setCount ..).trans hs.table
  · have hold := hs.exclusive j
    have hpart : part (Holds j · = true) (some ((id, delta), .post id)) =
        part (Holds j · = true) (s.threads i) := by
      rw [hi]
      rfl
    simp only [tally_update, hpart]
    omega
  · exact (Function.forall_update_iff _ fun _ => Serves).mpr ⟨rfl, fun j _ => hs.serves j⟩
  · exact (Function.forall_update_iff _ fun _ => Fresh _).mpr
      ⟨trivial, fun j hj => hs.fresh_of_ne hj hholds⟩
  · simp only [recordAt_setCount] at hr
    rw [hbooked]
    by_cases hat : path = pathOf id s.stocks.root
    · rw [if_pos hat] at hr
      obtain ⟨r₁, hr₁, rfl⟩ := Option.map_eq_some_iff.mp hr
      obtain ⟨r₀, hr₀, hbalance⟩ := hs.balance path r₁ hr₁
      have hlook : lookup id s.stocks.root = some r₁ := by
        rw [lookup, ← hat]
        exact hr₁
      obtain rfl : r₁.1 = id := id_of_lookup hlook
      have hread : r₁.2.1 = count := by
        rw [countOf_eq_lookup, hlook] at hcount
        exact Option.some.inj hcount
      rw [hpath] at hat
      rw [if_pos hat, hread] at hbalance
      refine ⟨r₀, hr₀, ?_⟩
      rw [if_pos hat, if_pos rfl, ← add_assoc]
      exact (toInt_add_modEq count delta).trans (hbalance.add_right _)
    · rw [if_neg hat] at hr
      obtain ⟨r₀, hr₀, hbalance⟩ := hs.balance path r hr
      refine ⟨r₀, hr₀, ?_⟩
      by_cases hid : id = r.1
      · rw [hpath, hid] at hat
        rw [if_neg hat] at hbalance ⊢
        exact hbalance
      · rw [if_neg hid, add_zero]
        exact hbalance

theorem earned_append (returned : List (Trade × Status)) (trade : Trade) (st : Status) (id : Int32) :
    earned (returned ++ [(trade, st)]) id =
      earned returned id + inFlight id (some (trade, .done st)) := by
  rw [earned, List.map_append, List.sum_append, List.map_singleton, List.sum_singleton]
  by_cases hst : st = .success
  · subst hst
    simp only [and_true]
    rfl
  · rw [if_neg fun h => hst h.2]
    cases st <;> first | rfl | exact absurd rfl hst

theorem ledger_next {a : Action ι} (hs : Ledger t₀ s) (h : next s a = some s') : Ledger t₀ s' := by
  cases a with
  | call i trade =>
    simp only [next] at h
    split at h
    · rename_i hi
      obtain rfl := Option.some.inj h
      apply hs.move rfl
      · intro id
        rw [hi]
        rfl
      · exact rfl
      · exact trivial
      · intro id
        rw [hi]
        rfl
    · cases h
  | step i =>
    simp only [next, Option.bind_eq_bind, Option.bind_eq_some_iff] at h
    obtain ⟨⟨trade, pc⟩, hi, ⟨stocks, pc'⟩, hnext, h⟩ := h
    obtain rfl := Option.some.inj h
    have hserves := hs.serves i
    rw [hi] at hserves
    obtain ⟨hheld, hserves', hfresh, hmoved⟩ := next_effect hserves hnext
    rcases hmoved with ⟨hroot, hflight⟩ | ⟨count, rfl, -, -⟩
    · apply hs.move hroot
      · intro id
        rw [hi]
        exact hheld id
      · exact hserves'
      · exact hfresh
      · intro id
        rw [hi, hflight id]
    · obtain ⟨rfl, rfl⟩ := Prod.mk.inj (Option.some.inj hnext)
      exact hs.update hi
  | ret i =>
    simp only [next] at h
    split at h
    · rename_i trade st hi
      obtain rfl := Option.some.inj h
      apply hs.move rfl
      · intro id
        rw [hi]
        rfl
      · exact trivial
      · exact trivial
      · intro id
        rw [hi, earned_append]
        exact add_zero _
    · cases h

/-- When no thread is inside `modify`, each stock has its first count with the
successful calls on it added, and the rest of the table is as it was. -/
theorem no_lost_update (hs : (runs t₀).Reachable s) (hquiet : ∀ i, s.threads i = none) :
    bare s.stocks.root = bare t₀ ∧
    ∀ path r, recordAt path s.stocks.root = some r → ∃ r₀, recordAt path t₀ = some r₀ ∧
      r.2.1.toInt ≡ r₀.2.1.toInt +
        if path = pathOf r.1 t₀ then earned s.returned r.1 else 0 [ZMOD 2 ^ 32] := by
  have hledger : Ledger t₀ s := by
    apply hs.invariant
    · intro s hs
      exact ledger_started hs
    · intro s a s' hs h
      exact ledger_next hs h
  have hbooked : ∀ id, booked s id = earned s.returned id := by
    intro id
    rw [booked, total_eq_zero, add_zero]
    intro i
    rw [hquiet i]
    rfl
  refine ⟨hledger.table, fun path r hr => ?_⟩
  obtain ⟨r₀, hr₀, hbalance⟩ := hledger.balance path r hr
  rw [hbooked] at hbalance
  exact ⟨r₀, hr₀, hbalance⟩

end Ledger

def twoStocks : Stock := .node 1 5 100 .null (.node 2 2147483647 3 .null .null)

def quiet : State Bool := ⟨⟨twoStocks, fun _ => 1⟩, fun _ => none, []⟩

/-- Two sales of three at once, both tested before either is made, and one that
is refused. -/
def sales : List (Action Bool) :=
  [.call true (1, -3), .call false (1, -3), .step true, .step false, .step true, .step false] ++
    List.replicate 4 (.step true) ++ List.replicate 4 (.step false) ++
    [.ret false, .ret true, .call true (2, 1), .step true, .step true, .ret true]

theorem no_lost_update_together : ∃ s : State Bool,
    s.returned.map Prod.snd = [.success, .success, .notenougherr] ∧
    bare s.stocks.root = bare twoStocks ∧ recordAt [] s.stocks.root = some (1, -1, 100) ∧
    ∃ r₀, recordAt [] twoStocks = some r₀ ∧ (-1) ≡ r₀.2.1.toInt + earned s.returned 1 [ZMOD 2 ^ 32] := by
  have hrun : (System.perform next (fun _ _ => True) quiet sales).map
      (fun s => (s.returned.map Prod.snd, recordAt [] s.stocks.root,
        (s.threads true).isNone && (s.threads false).isNone)) =
      some ([.success, .success, .notenougherr], some (1, -1, 100), true) := by decide +kernel
  obtain ⟨s, hs, hread⟩ := Option.map_eq_some_iff.mp hrun
  obtain ⟨hreturned, hread⟩ := Prod.mk.inj hread
  obtain ⟨hrecord, hthreads⟩ := Prod.mk.inj hread
  rw [Bool.and_eq_true, Option.isNone_iff_eq_none, Option.isNone_iff_eq_none] at hthreads
  have hstart : ((runs twoStocks).guarded fun _ _ => True).Reachable quiet :=
    .initial ⟨rfl, fun _ => rfl, fun _ => rfl, rfl⟩
  obtain ⟨hbare, hcounts⟩ := no_lost_update (hstart.perform hs).of_guarded (by
    intro i
    cases i
    · exact hthreads.2
    · exact hthreads.1)
  exact ⟨s, hreturned, hbare, hrecord, hcounts [] _ hrecord⟩

end SystemSoftware.StockLedger
