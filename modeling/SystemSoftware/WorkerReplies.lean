import SystemSoftware.AtomicObject
import SystemSoftware.WorkerProgress

/-!
The replies of the worker threads. print_to_buf reads the nodes one after the other while
other threads go on, and modify tests and changes a count in several steps. With the calls
and the returns recorded, the threads are compared with a table on which each request is
executed at once: they cannot be told apart as long as no reader counts itself while a
writer is past its test, and the count that an update starts from still covers it.
-/
namespace SystemSoftware.WorkerReplies

open DecimalText StockTree WorkerThreads WorkerProgress Transitions ThreadTally
open StockThreads (ModifyPc Stocks countOf)
open StockMap (Path recordAt)
open StockLedger (countOf_setCount_of_ne)
open AtomicObject (Event Client Linearizes linearizes_of_simulation)

/-- The calls of `print_to_buf` that are still to come, each by the way to its node, and
`cnct->result`. -/
structure Print where
  todo : List Path
  result : Text

/-- One call of `print_to_buf` up to the two calls that it makes. -/
def Print.next (root : Stock) (p : Print) : Option Print :=
  match p.todo with
  | [] => none
  | path :: todo =>
    match recordAt path root with
    | none => some { p with todo := todo }
    | some r => do
      let result ← strcat p.result (line r.1 r.2.1 r.2.2)
      some ⟨(path ++ [false]) :: (path ++ [true]) :: todo, result⟩

abbrev Reply := Status × Text

section Model

variable {ι : Type}

def event? (i : ι) (t : Thread) (p : Print) : Option (Event ι Request Reply) :=
  match t.pc, t.todo with
  | .idle, r :: _ => some (.call i r)
  | .showDown st .done, _ => some (.ret i (st, p.result))
  | .tradeDown st .done, _ => some (.ret i (st, p.result))
  | _, _ => none

/-- The result is emptied in front of a request; `show` calls `print_to_buf` for the root. -/
def prepared (t : Thread) (p : Print) : Print :=
  match t.pc with
  | .idle => ⟨[], []⟩
  | .showUp .done => { p with todo := [[]] }
  | _ => p

structure State (ι : Type) where
  base : WorkerThreads.State ι
  prints : ι → Print
  history : List (Event ι Request Reply)

variable [DecidableEq ι]

def next (s : State ι) (i : ι) : Option (State ι) :=
  if (s.base.threads i).pc = .printing ∧ (s.prints i).todo ≠ [] then do
    let p ← (s.prints i).next s.base.shared.stocks.root
    some { s with prints := Function.update s.prints i p }
  else do
    let base ← WorkerThreads.next s.base i
    some
      { base := base
        prints := Function.update s.prints i (prepared (s.base.threads i) (s.prints i))
        history := s.history ++ (event? i (s.base.threads i) (s.prints i)).toList }

def Started (root : Stock) (s : State ι) : Prop :=
  WorkerThreads.Started s.base ∧ s.base.shared.stocks.root = root ∧ s.history = []

def runs (root : Stock) : System (State ι) ι := System.ofNext (Started root) next

/-- The count that a thread reads for its update covers it. -/
def covered (s : WorkerThreads.State ι) (i : ι) : Bool :=
  match (s.threads i).pc with
  | .modifying (.read id delta _) =>
    match countOf id s.shared.stocks.root with
    | none => true
    | some count => 0 ≤ count + delta
  | _ => true

def answer (root : Stock) : Request → Stock × Reply
  | .show => (root, (if root = .null then .error else .success, text root))
  | .sell id n => ((modify root id n).1, ((modify root id n).2, []))
  | .buy id n => ((modify root id (-n)).1, ((modify root id (-n)).2, []))

end Model

section Table

variable {root : Stock} {p p' : Print} {path : Path} {todo : List Path} {r : StockTree.Record}

def subtreeAt : Path → Stock → Stock
  | [], t => t
  | _ :: _, .null => .null
  | turn :: path, .node _ _ _ left right => subtreeAt path (if turn then right else left)

/-- The text that the calls still to come will append. -/
def pending (root : Stock) (todo : List Path) : Text :=
  todo.flatMap fun path => text (subtreeAt path root)

theorem text_of_none (h : recordAt path root = none) : text (subtreeAt path root) = [] := by
  induction path generalizing root with
  | nil =>
    cases root with
    | null => rfl
    | node id count price left right => cases h
  | cons turn path ih =>
    cases root with
    | null => rfl
    | node id count price left right => exact ih h

/-- A node's line stands in front of the texts of its two subtrees. -/
theorem text_of_some (h : recordAt path root = some r) :
    text (subtreeAt path root) = line r.1 r.2.1 r.2.2 ++
      (text (subtreeAt (path ++ [false]) root) ++ text (subtreeAt (path ++ [true]) root)) := by
  induction path generalizing root with
  | nil =>
    cases root with
    | null => cases h
    | node id count price left right =>
      obtain rfl := Option.some.inj h
      rw [← List.append_assoc]
      exact text_node left right
  | cons turn path ih =>
    cases root with
    | null => cases h
    | node id count price left right => exact ih h

/-- What has been printed and what is to come is the table. -/
def Printed (root : Stock) (p : Print) : Prop := p.result ++ pending root p.todo = text root

theorem printed_next (hp : Printed root p) (h : p.next root = some p') : Printed root p' := by
  obtain ⟨todo, result⟩ := p
  rw [Printed] at hp ⊢
  cases todo with
  | nil => cases h
  | cons path todo =>
    simp only [pending, List.flatMap_cons] at hp
    simp only [Print.next] at h
    split at h
    · next hnone =>
      obtain rfl := Option.some.inj h
      rw [text_of_none hnone, List.nil_append] at hp
      exact hp
    · next r hsome =>
      obtain ⟨result', hcat, h⟩ := Option.bind_eq_some_iff.mp h
      obtain rfl := Option.some.inj h
      rw [strcat] at hcat
      split at hcat
      · obtain rfl := Option.some.inj hcat
        rw [text_of_some hsome] at hp
        rw [← hp]
        simp [pending]
      · cases hcat

end Table

section Threads

variable {ι : Type} {i : ι} {s s' : Shared} {t t' : Thread} {p : Print}
  {c : Client Request Reply} {root : Stock} {id delta : Int32} {op : Request}

def Trades : Request → Int32 → Int32 → Prop
  | .show, _, _ => False
  | .sell id n, i, delta => i = id ∧ delta = n
  | .buy id n, i, delta => i = id ∧ delta = -n

theorem answer_of_trades (h : Trades op id delta) (root : Stock) :
    answer root op = ((modify root id delta).1, ((modify root id delta).2, [])) := by
  cases op with
  | «show» => cases h
  | sell j n | buy j n =>
    obtain ⟨rfl, rfl⟩ := h
    rfl

def Waits (c : Client Request Reply) (p : Print) (id delta : Int32) : Prop :=
  (∃ op, c = .called op ∧ Trades op id delta) ∧ p.result = []

/-- What the thread is doing for its client. -/
def Matches (t : Thread) (p : Print) (c : Client Request Reply) : Prop :=
  match t.pc with
  | .idle => c = .idle
  | .showTest | .showUp _ => c = .called .show ∧ p.result = []
  | .printing => c = .called .show
  | .showDown st _ | .tradeDown st _ | .modifying (.done st) => c = .served (st, p.result)
  | .tradeUp id delta _ | .tradeCall id delta => Waits c p id delta
  | .modifying (.find id delta) | .modifying (.test id delta) => Waits c p id delta
  | .modifying (.wait id delta _) | .modifying (.read id delta _) => Waits c p id delta
  | .modifying (.write id delta _) => Waits c p id delta
  | .modifying (.post _) => c = .served (.success, p.result)

/-- The count that an update starts from is that of the table and covers the update. -/
def Covers (root : Stock) (t : Thread) : Prop :=
  match t.pc with
  | .modifying (.write id delta count) => countOf id root = some count ∧ 0 ≤ count + delta
  | _ => True

/-- What a step of a thread is for its client. -/
inductive Serves (i : ι) (s s' : Shared) (t t' : Thread) (p : Print) (c : Client Request Reply) :
    Prop
  | quiet (hroot : s'.stocks.root = s.stocks.root) (hevent : event? i t p = none)
      (h : Matches t' (prepared t p) c)
  | call (op : Request) (hc : c = .idle) (hroot : s'.stocks.root = s.stocks.root)
      (hevent : event? i t p = some (.call i op)) (h : Matches t' (prepared t p) (.called op))
  | take (op : Request) (hc : c = .called op)
      (hroot : s'.stocks.root = (answer s.stocks.root op).1) (hevent : event? i t p = none)
      (h : Matches t' (prepared t p) (.served (answer s.stocks.root op).2))
  | ret (res : Reply) (hc : c = .served res) (hroot : s'.stocks.root = s.stocks.root)
      (hevent : event? i t p = some (.ret i res)) (h : Matches t' (prepared t p) .idle)

/-- One step of one thread: besides, the table changes by updates alone, which start from
the count that is there, and `print_to_buf` begins at the root with an empty result. -/
structure Effect (i : ι) (s s' : Shared) (t t' : Thread) (p : Print) (c : Client Request Reply) :
    Prop where
  serves : Serves i s s' t t' p c
  root : s'.stocks.root = s.stocks.root ∨ ∃ id delta count,
    t.pc = .modifying (.write id delta count) ∧
      s'.stocks.root = setCount id (count + delta) s.stocks.root
  covers : Covers s'.stocks.root t'
  printing : t'.pc = .printing → prepared t p = ⟨[[]], []⟩

/-- A step that is not seen and that does not touch the table. -/
theorem Effect.quiet (hevent : event? i t p = none) (hroot : s'.stocks.root = s.stocks.root)
    (h : Matches t' (prepared t p) c) (hcovers : Covers s'.stocks.root t')
    (hprinting : t'.pc ≠ .printing) : Effect i s s' t t' p c where
  serves := .quiet hroot hevent h
  root := Or.inl hroot
  covers := hcovers
  printing := fun hpc => absurd hpc hprinting

theorem modify_of_none (h : countOf id root = none) :
    StockTree.modify root id delta = (root, .error) := by
  cases hfind : find id root with
  | null => simp only [StockTree.modify, hfind]
  | node _ count _ _ _ => simp only [countOf, hfind, reduceCtorEq] at h

theorem modify_of_some {count : Int32} (h : countOf id root = some count) :
    StockTree.modify root id delta =
      if count + delta < 0 then (root, .notenougherr)
      else (setCount id (count + delta) root, .success) := by
  cases hfind : find id root with
  | null => simp only [countOf, hfind, reduceCtorEq] at h
  | node _ found _ _ _ =>
    simp only [countOf, hfind, Option.some.injEq] at h
    simp only [StockTree.modify, hfind, h]

/-- The request is executed as `modify` with the status `st`. -/
theorem Waits.take {st : Status} {root' : Stock} (hw : Waits c p id delta)
    (hanswer : StockTree.modify root id delta = (root', st)) :
    ∃ op, c = .called op ∧ answer root op = (root', (st, p.result)) := by
  obtain ⟨⟨op, hc, hop⟩, hresult⟩ := hw
  exact ⟨op, hc, by rw [answer_of_trades hop, hanswer, hresult]⟩

/-- A call of `modify` takes effect at its update, or where it is refused. -/
theorem modify_effect {m m' : ModifyPc} {stocks : Stocks} {todo : List Request}
    {returned : List Status} (hcovers : Covers s.stocks.root ⟨.modifying m, todo, returned⟩)
    (hread : ∀ id delta seen count, m = .read id delta seen →
      countOf id s.stocks.root = some count → 0 ≤ count + delta)
    (hm : Matches ⟨.modifying m, todo, returned⟩ p c) (h : m.next s.stocks = some (stocks, m')) :
    Effect i s { s with stocks := stocks } ⟨.modifying m, todo, returned⟩
      ⟨.modifying m', todo, returned⟩ p c := by
  have hno : ∀ k, Pc.modifying k ≠ .printing := fun k hk => Pc.noConfusion hk
  cases m with
  | find id delta =>
    simp only [ModifyPc.next] at h
    split at h
    · next hnone =>
      obtain ⟨rfl, rfl⟩ := Prod.mk.inj (Option.some.inj h)
      obtain ⟨op, hc, hanswer⟩ := hm.take (modify_of_none hnone)
      refine ⟨.take op hc (by rw [hanswer]) rfl ?_, Or.inl rfl, trivial, fun h => absurd h (hno _)⟩
      rw [hanswer]
      rfl
    · obtain ⟨rfl, rfl⟩ := Prod.mk.inj (Option.some.inj h)
      exact .quiet rfl rfl hm trivial (hno _)
  | test id delta =>
    obtain ⟨count, hcount, h⟩ := Option.bind_eq_some_iff.mp h
    by_cases hlt : count + delta < 0
    · rw [if_pos hlt] at h
      obtain ⟨rfl, rfl⟩ := Prod.mk.inj (Option.some.inj h)
      obtain ⟨op, hc, hanswer⟩ := hm.take ((modify_of_some hcount).trans (if_pos hlt))
      refine ⟨.take op hc (by rw [hanswer]) rfl ?_, Or.inl rfl, trivial, fun h => absurd h (hno _)⟩
      rw [hanswer]
      rfl
    · rw [if_neg hlt] at h
      obtain ⟨rfl, rfl⟩ := Prod.mk.inj (Option.some.inj h)
      exact .quiet rfl rfl hm trivial (hno _)
  | wait id delta seen =>
    simp only [ModifyPc.next] at h
    split at h
    · obtain ⟨rfl, rfl⟩ := Prod.mk.inj (Option.some.inj h)
      exact .quiet rfl rfl hm trivial (hno _)
    · cases h
  | read id delta seen =>
    obtain ⟨count, hcount, h⟩ := Option.bind_eq_some_iff.mp h
    obtain ⟨rfl, rfl⟩ := Prod.mk.inj (Option.some.inj h)
    exact .quiet rfl rfl hm ⟨hcount, hread id delta seen count rfl hcount⟩ (hno _)
  | write id delta count =>
    obtain ⟨rfl, rfl⟩ := Prod.mk.inj (Option.some.inj h)
    obtain ⟨hcount, hle⟩ := hcovers
    obtain ⟨op, hc, hanswer⟩ := hm.take
      ((modify_of_some hcount).trans (if_neg (Int32.not_lt.mpr hle)))
    refine ⟨.take op hc (by rw [hanswer]) rfl ?_, Or.inr ⟨id, delta, count, rfl, rfl⟩, trivial,
      fun h => absurd h (hno _)⟩
    rw [hanswer]
    rfl
  | post id =>
    obtain ⟨rfl, rfl⟩ := Prod.mk.inj (Option.some.inj h)
    exact .quiet rfl rfl hm trivial (hno _)
  | done st => cases h

/-- The step of a thread, which has printed the whole table when it has got through
`print_to_buf`. -/
theorem next_effect (hcovers : Covers s.stocks.root t) (hm : Matches t p c)
    (hread : ∀ id delta seen count, t.pc = .modifying (.read id delta seen) →
      countOf id s.stocks.root = some count → 0 ≤ count + delta)
    (hprinted : t.pc = .printing → p.result = text s.stocks.root)
    (h : t.next s = some (s', t')) : Effect i s s' t t' p c := by
  obtain ⟨pc, todo, returned⟩ := t
  cases pc with
  | idle =>
    cases todo with
    | nil => cases h
    | cons r todo =>
      obtain ⟨rfl, rfl⟩ := Prod.mk.inj (Option.some.inj h)
      cases r with
      | «show» =>
        exact ⟨.call _ hm rfl rfl ⟨rfl, rfl⟩, Or.inl rfl, trivial, fun h => Pc.noConfusion h⟩
      | sell id n | buy id n =>
        exact ⟨.call _ hm rfl rfl ⟨⟨_, rfl, rfl, rfl⟩, rfl⟩, Or.inl rfl, trivial,
          fun h => Pc.noConfusion h⟩
  | showTest =>
    obtain ⟨rfl, rfl⟩ := Prod.mk.inj (Option.some.inj h)
    split <;> exact .quiet rfl rfl hm trivial fun h => Pc.noConfusion h
  | showUp c' =>
    obtain ⟨rfl, rfl, rfl⟩ | ⟨k, c'', hk, rfl, rfl⟩ := next_showUp h
    · exact ⟨.quiet rfl rfl hm.1, Or.inl rfl, trivial, fun _ => congrArg (Print.mk [[]]) hm.2⟩
    · cases c' with
      | done => cases hk
      | _ => exact .quiet rfl rfl hm trivial fun h => Pc.noConfusion h
  | printing =>
    obtain ⟨rfl, rfl⟩ := Prod.mk.inj (Option.some.inj h)
    refine ⟨.take .show hm rfl rfl ?_, Or.inl rfl, trivial, fun h => Pc.noConfusion h⟩
    rw [answer, ← hprinted rfl]
    rfl
  | showDown st c' =>
    obtain ⟨rfl, rfl, rfl⟩ | ⟨k, c'', hk, rfl, rfl⟩ := next_showDown h
    · exact ⟨.ret _ hm rfl rfl rfl, Or.inl rfl, trivial, fun h => Pc.noConfusion h⟩
    · cases c' with
      | done => cases hk
      | _ => exact .quiet rfl rfl hm trivial fun h => Pc.noConfusion h
  | tradeUp id delta c' =>
    obtain ⟨rfl, rfl, rfl⟩ | ⟨k, c'', hk, rfl, rfl⟩ := next_tradeUp h
    · split <;> exact .quiet rfl rfl hm trivial fun h => Pc.noConfusion h
    · exact .quiet rfl rfl hm trivial fun h => Pc.noConfusion h
  | tradeCall id delta =>
    obtain ⟨rfl, rfl⟩ := Prod.mk.inj (Option.some.inj h)
    exact .quiet rfl rfl hm trivial fun h => Pc.noConfusion h
  | modifying m =>
    obtain ⟨st, rfl, rfl, rfl⟩ | ⟨stocks, m', hnext, rfl, rfl⟩ := next_modifying h
    · exact .quiet rfl rfl hm trivial fun h => Pc.noConfusion h
    · exact modify_effect hcovers
        (fun id delta seen count hpc => hread id delta seen count (congrArg Pc.modifying hpc))
        hm hnext
  | tradeDown st c' =>
    obtain ⟨rfl, rfl, rfl⟩ | ⟨k, c'', hk, rfl, rfl⟩ := next_tradeDown h
    · exact ⟨.ret _ hm rfl rfl rfl, Or.inl rfl, trivial, fun h => Pc.noConfusion h⟩
    · cases c' with
      | done => cases hk
      | _ => exact .quiet rfl rfl hm trivial fun h => Pc.noConfusion h

end Threads

section Linearizability

variable {ι : Type} [Fintype ι] [DecidableEq ι] {root : Stock} {s s' : State ι} {i : ι}
  {x : AtomicObject.State ι Stock Request Reply}

/-- The steps at which the threads are told apart from requests that are executed at once. -/
def timely (s : State ι) (i : ι) : Bool := notLate s.base i && covered s.base i

/-- The state of the object that the threads are compared with. -/
structure Follows (s : State ι) (x : AtomicObject.State ι Stock Request Reply) : Prop where
  object : x.object = s.base.shared.stocks.root
  clients : ∀ i, Matches (s.base.threads i) (s.prints i) (x.clients i)
  printed : ∀ i, (s.base.threads i).pc = .printing →
    Printed s.base.shared.stocks.root (s.prints i)
  covers : ∀ i, Covers s.base.shared.stocks.root (s.base.threads i)
  apart : WorkerThreads.Invariant s.base
  accounts : Accounts s.base

omit [DecidableEq ι] in
theorem follows_started (hs : Started root s) :
    Follows s (AtomicObject.initial root) where
  object := hs.2.1.symm
  clients := fun i => by rw [Matches, hs.1.2.2.2 i]; rfl
  printed := fun i h => by rw [hs.1.2.2.2 i] at h; cases h
  covers := fun i => by rw [Covers, hs.1.2.2.2 i]; trivial
  apart := invariant_started hs.1
  accounts := accounts_started hs.1

/-- An update leaves the counts alone that other threads have read for theirs. -/
theorem covers_of_ne {j : ι} {id delta count n : Int32} (hacc : Accounts s.base) (hne : j ≠ i)
    (hi : (s.base.threads i).pc = .modifying (.write id delta count))
    (hj : Covers s.base.shared.stocks.root (s.base.threads j)) :
    Covers (setCount id n s.base.shared.stocks.root) (s.base.threads j) := by
  have hholds : HoldsNode id (s.base.threads i) = true := by
    rw [HoldsNode, hi]
    exact decide_eq_true rfl
  have hle : tally (HoldsNode id · = true) s.base.threads ≤ 1 := by
    have hone := hacc.nodeMutex id
    omega
  rw [Covers] at hj ⊢
  split at hj
  · next k d m hpc =>
    have hk : k ≠ id := by
      rintro rfl
      refine hne (eq_of_tally_le_one hle ?_ hholds)
      rw [HoldsNode, hpc]
      exact decide_eq_true rfl
    exact ⟨(countOf_setCount_of_ne hk _).trans hj.1, hj.2⟩
  · trivial

omit [DecidableEq ι] in
/-- While a writer updates a count nobody prints. -/
theorem not_printing_of_write {j : ι} {id delta count : Int32}
    (hapart : WorkerThreads.Invariant s.base)
    (hi : (s.base.threads i).pc = .modifying (.write id delta count)) :
    (s.base.threads j).pc ≠ .printing := by
  intro hj
  have hwriting := hapart.apart j i (by rw [Reading, hj])
  rw [Writing, hi] at hwriting
  cases hwriting

theorem follows_print {p : Print} (hs : Follows s x) (hi : (s.base.threads i).pc = .printing)
    (hp : (s.prints i).next s.base.shared.stocks.root = some p) :
    Follows { s with prints := Function.update s.prints i p } x := by
  refine { hs with clients := fun j => ?_, printed := fun j hj => ?_ }
  · by_cases hji : j = i
    · subst hji
      have hclient := hs.clients j
      rw [Matches, hi] at hclient ⊢
      exact hclient
    · simpa only [Function.update_of_ne hji] using hs.clients j
  · by_cases hji : j = i
    · subst hji
      simpa only [Function.update_self] using printed_next (hs.printed j hi) hp
    · simpa only [Function.update_of_ne hji] using hs.printed j hj

/-- A step of the threads is at most one move of the object. -/
theorem follows_next (hs : Follows s x) (ht : timely s i = true) (h : next s i = some s') :
    (s'.history = s.history ∧ Follows s' x) ∨ ∃ move x', AtomicObject.Step answer x move x' ∧
      s'.history = s.history ++ move.event?.toList ∧ Follows s' x' := by
  obtain ⟨hlate, hcovered⟩ := Bool.and_eq_true_iff.mp ht
  rw [next] at h
  split at h
  · next hprint =>
    obtain ⟨p, hp, h⟩ := Option.bind_eq_some_iff.mp h
    obtain rfl := Option.some.inj h
    exact Or.inl ⟨rfl, follows_print hs hprint.1 hp⟩
  next hprint =>
  obtain ⟨base, hbase, h⟩ := Option.bind_eq_some_iff.mp h
  obtain rfl := Option.some.inj h
  have hapart := invariant_next hs.apart hlate hbase
  have haccounts := accounts_next hs.accounts hbase
  obtain ⟨⟨shared, t⟩, hnext, hthreads⟩ := Option.bind_eq_some_iff.mp hbase
  obtain rfl := Option.some.inj hthreads
  have hread : ∀ id delta seen count, (s.base.threads i).pc = .modifying (.read id delta seen) →
      countOf id s.base.shared.stocks.root = some count → 0 ≤ count + delta := by
    intro id delta seen count hpc hcount
    simpa only [covered, hpc, hcount, decide_eq_true_eq] using hcovered
  have hprinted : (s.base.threads i).pc = .printing →
      (s.prints i).result = text s.base.shared.stocks.root := by
    intro hpc
    have hwhole := hs.printed i hpc
    rwa [Printed, not_not.mp fun hne => hprint ⟨hpc, hne⟩, pending, List.flatMap_nil,
      List.append_nil] at hwhole
  obtain ⟨hserves, hroot, hcovers, hprinting⟩ :=
    next_effect (i := i) (hs.covers i) (hs.clients i) hread hprinted hnext
  -- What does not depend on the move of the object.
  have hfollows : ∀ c, Matches t (prepared (s.base.threads i) (s.prints i)) c →
      Follows ⟨⟨shared, Function.update s.base.threads i t⟩,
        Function.update s.prints i (prepared (s.base.threads i) (s.prints i)),
        s.history ++ (event? i (s.base.threads i) (s.prints i)).toList⟩
        ⟨shared.stocks.root, Function.update x.clients i c⟩ := by
    intro c hc
    refine ⟨rfl, fun j => ?_, fun j hj => ?_, fun j => ?_, hapart, haccounts⟩
    · by_cases hji : j = i
      · subst hji
        simpa only [Function.update_self] using hc
      · simpa only [Function.update_of_ne hji] using hs.clients j
    · by_cases hji : j = i
      · subst hji
        simp only [Function.update_self] at hj ⊢
        rw [hprinting hj, Printed, pending, List.flatMap_singleton]
        rfl
      · simp only [Function.update_of_ne hji] at hj ⊢
        rcases hroot with hsame | ⟨id, delta, count, hpc, -⟩
        · rw [hsame]
          exact hs.printed j hj
        · exact absurd hj (not_printing_of_write hs.apart hpc)
    · by_cases hji : j = i
      · subst hji
        simpa only [Function.update_self] using hcovers
      · simp only [Function.update_of_ne hji]
        rcases hroot with hsame | ⟨id, delta, count, hpc, hset⟩
        · rw [hsame]
          exact hs.covers j
        · rw [hset]
          exact covers_of_ne hs.accounts hji hpc (hs.covers j)
  have hobject := hs.object
  cases hserves with
  | quiet hsame hevent hm =>
    have hx : x = ⟨shared.stocks.root, Function.update x.clients i (x.clients i)⟩ := by
      rw [Function.update_eq_self, hsame, ← hobject]
    refine Or.inl ⟨by rw [hevent]; exact List.append_nil _, ?_⟩
    rw [hx]
    exact hfollows _ hm
  | call op hc hsame hevent hm =>
    refine Or.inr ⟨.seen (.call i op), _, .call hc, by rw [hevent]; rfl, ?_⟩
    have hset := hfollows _ hm
    rwa [hsame, ← hobject] at hset
  | take op hc hnew hevent hm =>
    refine Or.inr ⟨.take i, _, .take hc, by rw [hevent]; rfl, ?_⟩
    have hset := hfollows _ hm
    rwa [hnew, ← hobject] at hset
  | ret res hc hsame hevent hm =>
    refine Or.inr ⟨.seen (.ret i res), _, .ret hc, by rw [hevent]; rfl, ?_⟩
    have hset := hfollows _ hm
    rwa [hsame, ← hobject] at hset

/-- The worker threads serve their clients as a table would that executes each request at
once, between its call and its return: `show` prints the table as it was at one moment, and
a trade has the status that it would have had alone. -/
theorem workers_linearizable
    (hs : ((runs root).guarded fun (s : State ι) i => timely s i = true).Reachable s) :
    Linearizes answer root s.history s.base.shared.stocks.root := by
  have hinit : ∀ s : State ι, Started root s →
      s.history = [] ∧ Follows s (AtomicObject.initial root) :=
    fun s h => ⟨h.2.2, follows_started h⟩
  obtain ⟨x, hx, hlin⟩ := linearizes_of_simulation
    (S := (runs root).guarded fun (s : State ι) i => timely s i = true) hinit
    (fun s i s' x hR hstep => follows_next hR hstep.2 hstep.1) hs
  rwa [hx.object] at hlin

end Linearizability

def twoStarted : State Bool := ⟨twoClients, fun _ => ⟨[], []⟩, []⟩

/-- The writer announces itself while the reader prints, and waits for it. -/
def readerPrinting : List Bool :=
  List.replicate 8 true ++ List.replicate 5 false ++ List.replicate 6 true ++
    List.replicate 13 false

theorem workers_linearizable_two : Linearizes answer (.node 1 5 100 .null .null)
    [.call true .show, .call false (.buy 1 3), .ret true (.success, ascii "1 5 100\n"),
      .ret false (.success, [])] (.node 1 2 100 .null .null) := by
  have hrun : (System.perform next (fun s i => timely s i = true) twoStarted readerPrinting).map
      (fun s => (s.history, s.base.shared.stocks.root)) =
      some ([.call true .show, .call false (.buy 1 3), .ret true (.success, ascii "1 5 100\n"),
        .ret false (.success, [])], .node 1 2 100 .null .null) := by decide +kernel
  obtain ⟨s, hs, hseen⟩ := Option.map_eq_some_iff.mp hrun
  obtain ⟨hhistory, hroot⟩ := Prod.mk.inj hseen
  have hstart : ((runs (.node 1 5 100 .null .null)).guarded fun (s : State Bool) i =>
      timely s i = true).Reachable twoStarted := .initial ⟨twoClients_started, rfl, rfl⟩
  rw [← hhistory, ← hroot]
  exact workers_linearizable (hstart.perform hs)

end SystemSoftware.WorkerReplies
