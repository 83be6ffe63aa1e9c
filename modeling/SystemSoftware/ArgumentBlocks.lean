import SystemSoftware.RequestTokens
import SystemSoftware.BlockLedger

/-!
The parser of the thread-based stock server with the blocks that it allocates: the
vector `args` of four pointers and the strings in it. `find_cmd` allocates a string
for each command of the list that the first token matches, and each takes the place
of the one before. The pointer and `argc` stay in the connection record from one
request to the next, and `free_args` goes by them.
-/
namespace SystemSoftware.ArgumentBlocks

open DecimalText StockTree RequestParser RequestTokens BlockLedger

inductive Block
  | vector (entries : ℕ → Option ℕ)
  | string

abbrev Blocks := Heap Block

/-- `struct connection`, with the identifier that `args` points to. The contents of the
argument strings are those of `cmd`. -/
structure Connection where
  cmd : Command
  args : Option ℕ
  heap : Blocks

def entry (h : Blocks) (args : Option ℕ) (i : ℕ) : Option (Option ℕ) :=
  match args.bind h.cells with
  | some (.vector entries) => if i < 4 then some (entries i) else none
  | _ => none

def storeNew (v i : ℕ) (h : Blocks) : Blocks :=
  let entries := match h.cells v with
    | some (.vector entries) => entries
    | _ => fun _ => none
  (h.alloc .string).write v (.vector (Function.update entries i (some h.fresh)))

def matchCommands (v : ℕ) (buf : Text) (pos : ℕ) (c : Connection) : Connection :=
  commandList.foldl (fun c e =>
    if strncmpEq (e.2.1 ++ [0]) buf pos then
      { c with cmd := select e c.cmd, heap := storeNew v 0 c.heap }
    else c) c

def findCmd (buf : Text) (c : Connection) : Option (Status × Connection × ℕ) :=
  let v := c.heap.fresh
  let c : Connection := ⟨cleared c.cmd, some v, c.heap.alloc (.vector fun _ => none)⟩
  if buf.head? = some newline then some (.error, c, 0)
  else do
    let (w, _) ← spanTo stops buf
    let c := matchCommands v buf w.length c
    if c.cmd.args 0 = none then some (.error, c, 0)
    else some (.success, c, w.length)

def findArgs (v : ℕ) (buf : Text) (c : Connection) : Option (Status × Connection) :=
  match c.cmd.flag with
  | .noargs => do
    let buf ← skipBlanks buf
    if buf.head? ≠ some newline then some (.error, c) else some (.success, c)
  | .intint => do
    let buf ← skipBlanks buf
    let (w₁, buf) ← spanTo blank buf
    let heap := storeNew v 1 c.heap
    let buf ← skipBlanks buf
    let (w₂, buf) ← spanTo stops buf
    let heap := storeNew v 2 heap
    let buf ← skipBlanks buf
    let c := { c with cmd := storeArgs w₁ w₂ c.cmd, heap := heap }
    if buf.head? ≠ some newline then some (.error, c) else some (.success, c)

def parser (buf : Text) (rc : Int) (c : Connection) : Option (Status × Connection) :=
  if rc = 1 then some (.nl, c)
  else do
    let v := c.heap.fresh
    let (st, c, p) ← findCmd buf c
    if st = .error then some (.nocmd, c)
    else do
      let (st, c) ← findArgs v (buf.drop p) c
      if st = .error then some (.invarg, c) else some (.success, c)

/-- The loop of `free_args` from `args[i]` on: the identifiers passed to `free`, and the
heap unless it reads outside of a live vector or releases what is not live. -/
def freeLoop (args : Option ℕ) : ℕ → ℕ → Blocks → List ℕ × Option Blocks
  | 0, _, h => ([], some h)
  | left + 1, i, h =>
    match entry h args i with
    | none => ([], none)
    | some none => freeLoop args left (i + 1) h
    | some (some id) =>
      match h.release id with
      | none => ([id], none)
      | some h =>
        let rest := freeLoop args left (i + 1) h
        (id :: rest.1, rest.2)

/-- `free_args`, where `free` is a macro that skips NULL. -/
def freeArgs (c : Connection) : List ℕ × Option Blocks :=
  let strings := freeLoop c.args c.cmd.argc 0 c.heap
  match strings.2, c.args with
  | none, _ => (strings.1, none)
  | some h, none => (strings.1, some h)
  | some h, some v => (strings.1 ++ [v], h.release v)

section Erasure

variable {buf : Text} {rc : Int} {pos v : ℕ}

theorem matchCommands_cmd (v : ℕ) (buf : Text) (pos : ℕ) (c : Connection) :
    (matchCommands v buf pos c).cmd = RequestParser.matchCommands buf pos c.cmd := by
  have hfold : ∀ (l : List Entry) (c : Connection),
      (l.foldl (fun c e =>
        if strncmpEq (e.2.1 ++ [0]) buf pos then
          { c with cmd := select e c.cmd, heap := storeNew v 0 c.heap }
        else c) c).cmd =
      l.foldl (fun cmd e =>
        if strncmpEq (e.2.1 ++ [0]) buf pos then select e cmd else cmd) c.cmd := by
    intro l
    induction l with
    | nil => exact fun _ => rfl
    | cons e l ih =>
      intro c
      rw [List.foldl_cons, List.foldl_cons, ih]
      congr 1
      split <;> rfl
  exact hfold commandList c

theorem findCmd_cmd (buf : Text) (c : Connection) :
    (findCmd buf c).map (fun r => (r.1, r.2.1.cmd, r.2.2)) = RequestParser.findCmd buf c.cmd := by
  rw [findCmd, RequestParser.findCmd]
  split
  · rfl
  · change ((spanTo stops buf).bind _).map _ = (spanTo stops buf).bind _
    cases spanTo stops buf with
    | none => rfl
    | some r =>
      simp only [Option.bind_some, matchCommands_cmd]
      set cmd := RequestParser.matchCommands buf r.1.length (cleared c.cmd)
      change Option.map _ (if cmd.args 0 = none then _ else _) =
        if cmd.args 0 = none then _ else _
      split
      · simp [matchCommands_cmd, cleared]
      · simp [matchCommands_cmd, cleared]

theorem findArgs_cmd (v : ℕ) (buf : Text) (c : Connection) :
    (findArgs v buf c).map (fun r => (r.1, r.2.cmd)) = RequestParser.findArgs buf c.cmd := by
  rw [findArgs, RequestParser.findArgs]
  cases hflag : c.cmd.flag with
  | noargs =>
    simp only [Option.bind_eq_bind, Option.map_bind, Function.comp_def, apply_ite (Option.map _),
      Option.map_some]
  | intint =>
    simp only [Option.bind_eq_bind, Option.map_bind, Function.comp_def, apply_ite (Option.map _),
      Option.map_some, storeArgs, hflag]
    rfl

/-- The parser with its blocks decodes what the parser without them does. -/
theorem parser_cmd (buf : Text) (rc : Int) (c : Connection) :
    (parser buf rc c).map (fun r => (r.1, r.2.cmd)) = RequestParser.parser buf rc c.cmd := by
  rw [parser, RequestParser.parser]
  split
  · rfl
  · rw [← findCmd_cmd]
    cases findCmd buf c with
    | none => rfl
    | some r =>
      obtain ⟨st, c, p⟩ := r
      simp only [Option.bind_eq_bind, Option.bind_some, Option.map_some]
      split
      · rfl
      · rw [← findArgs_cmd]
        cases findArgs _ (buf.drop p) c with
        | none => rfl
        | some r =>
          simp only [Option.bind_some, Option.map_some]
          split <;> rfl

end Erasure

/-- The entries of a vector whose first `n` strings were allocated one after the other. -/
def entriesFrom (a n : ℕ) : ℕ → Option ℕ := fun i => if i < n then some (a + i) else none

/-- The connection has the vector `v`, and `n` strings from `a` on in it, the last blocks
that were allocated. -/
structure Held (v a n : ℕ) (c : Connection) : Prop where
  args : c.args = some v
  before : v < a
  fresh : c.heap.fresh = a + n
  vector : c.heap.cells v = some (.vector (entriesFrom a n))
  strings : ∀ i < n, c.heap.cells (a + i) = some .string

section Filling

variable {h : Blocks} {c : Connection} {v a n i : ℕ} {entries : ℕ → Option ℕ}

theorem entriesFrom_zero (a : ℕ) : entriesFrom a 0 = fun _ => none := by
  funext i
  exact if_neg (Nat.not_lt_zero i)

theorem entriesFrom_last (a n : ℕ) :
    Function.update (entriesFrom a n) n (some (a + n)) = entriesFrom a (n + 1) := by
  funext i
  by_cases hi : i = n
  · rw [hi, Function.update_self, entriesFrom, if_pos (Nat.lt_succ_self n)]
  · have hiff : i < n + 1 ↔ i < n := by omega
    rw [Function.update_of_ne hi, entriesFrom, entriesFrom, if_congr hiff rfl rfl]

theorem entriesFrom_first (hn : n ≤ 1) (b : ℕ) :
    Function.update (entriesFrom a n) 0 (some b) = entriesFrom b 1 := by
  funext i
  by_cases hi : i = 0
  · rw [hi, Function.update_self]
    rfl
  · have hi' : ¬ i < 1 := by omega
    rw [Function.update_of_ne hi, entriesFrom, entriesFrom, if_neg hi',
      if_neg fun hlt => hi' (hlt.trans_le hn)]

theorem storeNew_vector (hv : h.cells v = some (.vector entries)) (i : ℕ) :
    (storeNew v i h).cells v = some (.vector (Function.update entries i (some h.fresh))) := by
  rw [storeNew, hv]
  exact Heap.write_self ..

theorem storeNew_string (hv : v ≠ h.fresh) (i : ℕ) :
    (storeNew v i h).cells h.fresh = some .string :=
  (Heap.write_of_ne hv.symm _).trans (Heap.alloc_self ..)

theorem storeNew_of_ne {j : ℕ} (hv : j ≠ v) (hj : j ≠ h.fresh) (i : ℕ) :
    (storeNew v i h).cells j = h.cells j :=
  (Heap.write_of_ne hv _).trans (Heap.alloc_of_ne hj _)

/-- The next string goes behind the others. -/
theorem Held.store (hc : Held v a n c) (cmd : Command) :
    Held v a (n + 1) { c with cmd := cmd, heap := storeNew v n c.heap } := by
  have hv : v ≠ c.heap.fresh := by
    have hfresh := hc.fresh
    have hbefore := hc.before
    omega
  refine ⟨hc.args, hc.before, congrArg (· + 1) hc.fresh, ?_, fun i hi => ?_⟩
  · rw [storeNew_vector hc.vector, hc.fresh, entriesFrom_last]
  · have hbefore := hc.before
    by_cases hlast : i = n
    · rw [hlast, ← hc.fresh]
      exact storeNew_string hv n
    · have hfresh := hc.fresh
      exact (storeNew_of_ne (by omega) (by omega) n).trans (hc.strings i (by omega))

/-- A string for another match takes the place of the one before, which nothing points
to any more. -/
theorem Held.replace (hc : Held v a n c) (hn : n ≤ 1) (cmd : Command) :
    Held v (a + n) 1 { c with cmd := cmd, heap := storeNew v 0 c.heap } := by
  have hbefore := hc.before
  have hv : v ≠ c.heap.fresh := by
    have hfresh := hc.fresh
    omega
  refine ⟨hc.args, by omega, congrArg (· + 1) hc.fresh, ?_, fun i hi => ?_⟩
  · rw [storeNew_vector hc.vector, hc.fresh, entriesFrom_first hn]
  · obtain rfl : i = 0 := by omega
    rw [Nat.add_zero, ← hc.fresh]
    exact storeNew_string hv 0

/-- What `find_cmd` has allocated when `k` commands have matched, and what `argc` was before. -/
structure Matched (v k argc : ℕ) (c : Connection) : Prop where
  held : Held v (v + max k 1) (min k 1) c
  argc : c.cmd.argc = if k = 0 then argc else 1
  named : c.cmd.args 0 = none ↔ k = 0

theorem Matched.select {k argc : ℕ} (hc : Matched v k argc c) (e : Entry) :
    Matched v (k + 1) argc
      { c with cmd := RequestTokens.select e c.cmd, heap := storeNew v 0 c.heap } := by
  have hheld := hc.held.replace (min_le_right k 1) (RequestTokens.select e c.cmd)
  have ha : v + max k 1 + min k 1 = v + max (k + 1) 1 := by omega
  have hn : min (k + 1) 1 = 1 := by omega
  rw [ha] at hheld
  refine ⟨?_, rfl, ?_⟩
  · rw [hn]
    exact hheld
  · change (RequestTokens.select e c.cmd).args 0 = none ↔ k + 1 = 0
    rw [select_args]
    exact ⟨fun h => absurd h (Option.some_ne_none _), fun h => absurd h (Nat.succ_ne_zero k)⟩

theorem matchCommands_matched {argc : ℕ} (hc : Matched v 0 argc c) (buf : Text) (pos : ℕ) :
    Matched v (commandList.filter fun e => strncmpEq (e.2.1 ++ [0]) buf pos).length argc
      (matchCommands v buf pos c) := by
  have hfold : ∀ (l : List Entry) (k : ℕ) (c : Connection), Matched v k argc c →
      Matched v (k + (l.filter fun e => strncmpEq (e.2.1 ++ [0]) buf pos).length) argc
        (l.foldl (fun c e =>
          if strncmpEq (e.2.1 ++ [0]) buf pos then
            { c with cmd := RequestTokens.select e c.cmd, heap := storeNew v 0 c.heap }
          else c) c) := by
    intro l
    induction l with
    | nil => exact fun _ _ hc => hc
    | cons e l ih =>
      intro k c hc
      rw [List.foldl_cons, List.filter_cons]
      split
      · rw [List.length_cons, ← Nat.add_assoc, Nat.add_right_comm]
        exact ih (k + 1) _ (hc.select e)
      · exact ih k c hc
  have hall := hfold commandList 0 c hc
  rw [Nat.zero_add] at hall
  exact hall

end Filling

def matching (buf : Text) : List Entry :=
  if buf.head? = some newline then []
  else
    match spanTo stops buf with
    | none => []
    | some (w, _) => commandList.filter fun e => strncmpEq (e.2.1 ++ [0]) buf w.length

section Parsing

variable {buf : Text} {rc : Int} {st : Status} {c c' : Connection} {v a p : ℕ}

/-- A new vector, in which nothing has been stored. -/
theorem matched_vector (c : Connection) : Matched c.heap.fresh 0 c.cmd.argc
    ⟨cleared c.cmd, some c.heap.fresh, c.heap.alloc (.vector fun _ => none)⟩ := by
  refine ⟨⟨rfl, Nat.lt_succ_self _, rfl, ?_, fun i hi => absurd hi (Nat.not_lt_zero i)⟩, rfl, ?_⟩
  · change (c.heap.alloc _).cells c.heap.fresh = some (.vector (entriesFrom _ 0))
    rw [Heap.alloc_self, entriesFrom_zero]
  · exact ⟨fun _ => rfl, fun _ => rfl⟩

/-- `find_cmd` succeeds if a command has matched. -/
theorem findCmd_matched (h : findCmd buf c = some (st, c', p)) :
    Matched c.heap.fresh (matching buf).length c.cmd.argc c' ∧
      (st = .error ↔ (matching buf).length = 0) := by
  rw [findCmd] at h
  rw [matching]
  split at h
  · next hempty =>
    obtain ⟨rfl, hc⟩ := Prod.mk.inj (Option.some.inj h)
    obtain ⟨rfl, -⟩ := Prod.mk.inj hc
    rw [if_pos hempty]
    exact ⟨matched_vector c, fun _ => rfl, fun _ => rfl⟩
  · next hempty =>
    obtain ⟨⟨w, rest⟩, hspan, h⟩ := Option.bind_eq_some_iff.mp h
    rw [if_neg hempty, hspan]
    have hmatched := matchCommands_matched (matched_vector c) buf w.length
    dsimp only at h ⊢
    split at h
    · next hnone =>
      obtain ⟨rfl, hc⟩ := Prod.mk.inj (Option.some.inj h)
      obtain ⟨rfl, -⟩ := Prod.mk.inj hc
      exact ⟨hmatched, fun _ => hmatched.named.mp hnone, fun _ => rfl⟩
    · next hnone =>
      obtain ⟨rfl, hc⟩ := Prod.mk.inj (Option.some.inj h)
      obtain ⟨rfl, -⟩ := Prod.mk.inj hc
      exact ⟨hmatched, Status.noConfusion, fun hk => absurd (hmatched.named.mpr hk) hnone⟩

/-- `find_args` stores no string or two, and `argc` counts them. -/
theorem findArgs_held (hc : Held v a 1 c) (hargc : c.cmd.argc = 1)
    (h : findArgs v buf c = some (st, c')) :
    ∃ n, 0 < n ∧ n ≤ 4 ∧ Held v a n c' ∧ c'.cmd.argc = n := by
  rw [findArgs] at h
  split at h
  · obtain ⟨rest, -, h⟩ := Option.bind_eq_some_iff.mp h
    rw [snd_of_ite h]
    exact ⟨1, Nat.one_pos, by decide, hc, hargc⟩
  · simp only [Option.bind_eq_bind, Option.bind_eq_some_iff] at h
    obtain ⟨_, -, ⟨w₁, _⟩, -, _, -, ⟨w₂, _⟩, -, rest, -, h⟩ := h
    rw [snd_of_ite h]
    exact ⟨3, by decide, by decide, (hc.store c.cmd).store (storeArgs w₁ w₂ c.cmd), rfl⟩

/-- What the connection holds behind the parser: a vector alone, with `argc` as it was
before, or the strings that `argc` counts. -/
theorem parser_held (hrc : rc ≠ 1) (h : parser buf rc c = some (st, c')) :
    ∃ n, Held c.heap.fresh (c.heap.fresh + max (matching buf).length 1) n c' ∧ n ≤ c'.cmd.argc ∧
      (c'.cmd.argc ≤ 4 ↔ (matching buf = [] → c.cmd.argc ≤ 4)) := by
  rw [parser, if_neg hrc] at h
  obtain ⟨⟨st₁, c₁, p⟩, hcmd, h⟩ := Option.bind_eq_some_iff.mp h
  obtain ⟨hmatched, hst⟩ := findCmd_matched hcmd
  dsimp only at h
  split at h
  · next herror =>
    obtain ⟨-, rfl⟩ := Prod.mk.inj (Option.some.inj h)
    have hk := hst.mp herror
    have hargc := hmatched.argc
    rw [if_pos hk] at hargc
    have hheld := hmatched.held
    rw [show min (matching buf).length 1 = 0 by omega] at hheld
    refine ⟨0, hheld, Nat.zero_le _, ?_⟩
    rw [hargc]
    exact ⟨fun h _ => h, fun h => h (List.length_eq_zero_iff.mp hk)⟩
  · next herror =>
    have hk : (matching buf).length ≠ 0 := fun hk => herror (hst.mpr hk)
    have hargc := hmatched.argc
    rw [if_neg hk] at hargc
    have hheld := hmatched.held
    rw [show min (matching buf).length 1 = 1 by omega] at hheld
    obtain ⟨⟨st₂, c₂⟩, hargs, h⟩ := Option.bind_eq_some_iff.mp h
    obtain ⟨n, -, hn, hheld', hargc'⟩ := findArgs_held hheld hargc hargs
    rw [snd_of_ite h]
    refine ⟨n, hheld', hargc'.ge, fun _ hnil => ?_, fun _ => hargc'.trans_le hn⟩
    exact absurd (List.length_eq_zero_iff.mpr hnil) hk

end Parsing

section Freeing

variable {h : Blocks} {c : Connection} {v a n : ℕ} {args : Option ℕ}

theorem lt_four_of_entry {i : ℕ} {x : Option ℕ} (hentry : entry h args i = some x) : i < 4 := by
  rw [entry] at hentry
  split at hentry
  · split at hentry
    · next hi => exact hi
    · cases hentry
  · cases hentry

/-- A fifth pointer is not there. -/
theorem freeLoop_outside : ∀ {left i : ℕ} {h : Blocks}, i ≤ 4 → 4 < i + left →
    (freeLoop args left i h).2 = none := by
  intro left
  induction left with
  | zero => exact fun hi hlt => by omega
  | succ left ih =>
    intro i h hi hlt
    rw [freeLoop]
    split
    · rfl
    · next hentry => exact ih (lt_four_of_entry hentry) (by omega)
    · next id hentry =>
      split
      · rfl
      · exact ih (lt_four_of_entry hentry) (by omega)

/-- The strings of the vector are released one after the other. -/
theorem freeLoop_held (hbefore : v < a) : ∀ (left : ℕ) {i : ℕ} {h : Blocks},
    h.cells v = some (.vector (entriesFrom a n)) →
    (∀ j, i ≤ j → j < n → h.cells (a + j) = some .string) → n ≤ i + left → i + left ≤ 4 →
    ∃ h', freeLoop (some v) left i h = (List.range' (a + i) (n - i), some h') ∧
      h'.cells v = some (.vector (entriesFrom a n)) := by
  intro left
  induction left with
  | zero =>
    intro i h hv _ hn _
    refine ⟨h, ?_, hv⟩
    rw [show n - i = 0 by omega]
    rfl
  | succ left ih =>
    intro i h hv hstrings hn hfour
    have hentry : entry h (some v) i = some (entriesFrom a n i) := by
      rw [entry, Option.bind_some, hv]
      exact if_pos (by omega)
    by_cases hi : i < n
    · have hlive := hstrings i le_rfl hi
      obtain ⟨h₁, hrelease, hframe⟩ := Heap.release_live hlive
      obtain ⟨h', hloop, hv'⟩ := ih (i := i + 1) ((hframe v (by omega)).trans hv)
        (fun j hj hjn => (hframe _ (by omega)).trans (hstrings j (by omega) hjn)) (by omega)
        (by omega)
      refine ⟨h', ?_, hv'⟩
      rw [freeLoop, hentry, entriesFrom, if_pos hi]
      simp only [hrelease, hloop]
      rw [show n - i = n - (i + 1) + 1 by omega, List.range'_succ]
      rfl
    · obtain ⟨h', hloop, hv'⟩ := ih (i := i + 1) hv (fun j hj => hstrings j (by omega)) (by omega)
        (by omega)
      refine ⟨h', ?_, hv'⟩
      rw [freeLoop, hentry, entriesFrom, if_neg hi]
      simp only [hloop]
      rw [show n - i = 0 by omega, show n - (i + 1) = 0 by omega]
      rfl

/-- `free_args` releases the strings and the vector, if `argc` stays inside the vector. -/
theorem freeArgs_held (hc : Held v a n c) (hn : n ≤ c.cmd.argc) (hfour : c.cmd.argc ≤ 4) :
    ∃ h, freeArgs c = (List.range' a n ++ [v], some h) := by
  obtain ⟨h, hloop, hv⟩ := freeLoop_held (i := 0) hc.before c.cmd.argc hc.vector
    (fun j _ => hc.strings j) (by omega) (by omega)
  obtain ⟨h', hrelease, -⟩ := Heap.release_live hv
  refine ⟨h', ?_⟩
  rw [freeArgs, hc.args, hloop]
  simp only [hrelease]
  rfl

theorem freeArgs_outside (hfour : 4 < c.cmd.argc) : (freeArgs c).2 = none := by
  rw [freeArgs, freeLoop_outside (Nat.zero_le 4) (by omega)]

/-- Without a parser call of its own `free_args` releases nothing only if there is nothing
to release. -/
theorem freeArgs_nothing :
    ((freeArgs c).2.isSome = true ∧ (freeArgs c).1 = []) ↔ c.args = none ∧ c.cmd.argc = 0 := by
  constructor
  · rintro ⟨hsome, hnil⟩
    rw [freeArgs] at hsome hnil
    cases hargs : c.args with
    | some v =>
      rw [hargs] at hsome hnil
      split at hnil
      · next hloop =>
        rw [hloop] at hsome
        cases hsome
      · next hnone =>
        cases hnone
      · exact absurd hnil (List.append_ne_nil_of_right_ne_nil _ (List.cons_ne_nil _ _))
    | none =>
      refine ⟨rfl, ?_⟩
      cases hargc : c.cmd.argc with
      | zero => rfl
      | succ argc =>
        rw [hargs, hargc] at hsome
        cases hsome
  · rintro ⟨hargs, hargc⟩
    rw [freeArgs, hargs, hargc]
    exact ⟨rfl, rfl⟩

end Freeing

end SystemSoftware.ArgumentBlocks
