import SystemSoftware.FileScan
import SystemSoftware.TraceDriver

/-!
Trace files: read_trace of mdriver.c. The header gives the numbers of ids and of requests,
and each request is a letter with an index and a size. What is read is what the header
says: a request that has no room in the array is written outside it, and two assertions
compare the rest. A variable that is not assigned has no value, and neither has the result
when such a value is used; an unsigned `%u` keeps its old one.
-/
namespace SystemSoftware.TraceFile

open DecimalText FileScan TraceDriver

/-- The calls of `malloc` are counted; the answer may depend on the size asked for. -/
abbrev Malloc := ℕ → ℕ → Bool

inductive Refusal
  | mallocFailed (k : ℕ)
  | notOpened
  | bogusType (c : UInt8)
  | wrongIds
  | wrongOps
  deriving DecidableEq

/-- What is printed, in front of what `perror` or `assert` adds. -/
def Refusal.text (path : Text) : Refusal → Text
  | .mallocFailed k => ascii "malloc " ++ printNat k ++
      if k = 1 then ascii " failed in read_trance" else ascii " failed in read_trace"
  | .notOpened => ascii "Could not open " ++ path ++ ascii " in read_trace"
  | .bogusType c => ascii "Bogus type character (" ++ [c] ++ ascii ") in tracefile " ++ path ++
      ascii "\n"
  | .wrongIds => ascii "max_index == trace->num_ids - 1"
  | .wrongOps => ascii "trace->num_ops == op_index"

/-- The fields of `trace_t` that are used; the arrays of the blocks are empty yet. -/
structure Trace where
  numIds : ℤ
  numOps : ℤ
  ops : List TraceOp
  deriving DecidableEq

/-- The variables of the loop; the requests read are those before `op_index`. -/
structure Reading where
  index : ℕ
  size : Option ℕ
  maxIndex : ℕ
  ops : List TraceOp

abbrev maxline : ℕ := 1024
abbrev sizeofTrace : ℕ := 28
abbrev sizeofTraceop : ℕ := 12
abbrev sizeofPointer : ℕ := 4

def toWord (z : ℤ) : ℕ := (z % 2 ^ 32).toNat

def scanPair (s : Reading) (t : Text) : Option (Reading × Text) := do
  let (index, t) ← scanUnsigned t
  match index with
  | none => some (s, t)
  | some index => do
    let (size, t) ← scanUnsigned t
    some ({ s with index := index, size := size.or s.size }, t)

/-- `fscanf(tracefile, "%ud", &index)`, which also reads a `d` behind the number. -/
def scanIndex (s : Reading) (t : Text) : Option (Reading × Text) := do
  let (index, t) ← scanUnsigned t
  match index with
  | none => some (s, t)
  | some index => some ({ s with index := index }, if t.head? = some 100 then t.tail else t)

/-- Storing into `ops[op_index]`, where the array has `bytes` bytes. -/
def Reading.put (s : Reading) (bytes : ℕ) (op : TraceOp) : Option Reading :=
  if sizeofTraceop * (s.ops.length + 1) ≤ bytes then some { s with ops := s.ops ++ [op] } else none

/-- The switch on `type[0]`. -/
def readRequest (bytes : ℕ) (s : Reading) (type t : Text) :
    Option (Except Refusal (Reading × Text)) :=
  if type.head? = some 97 then do
    let (s, t) ← scanPair s t
    let s ← s.put bytes (.alloc s.index (← s.size))
    some (.ok ({ s with maxIndex := max s.maxIndex s.index }, t))
  else if type.head? = some 114 then do
    let (s, t) ← scanPair s t
    let s ← s.put bytes (.realloc s.index (← s.size))
    some (.ok ({ s with maxIndex := max s.maxIndex s.index }, t))
  else if type.head? = some 102 then do
    let (s, t) ← scanIndex s t
    let s ← s.put bytes (.free s.index)
    some (.ok (s, t))
  else some (.error (.bogusType (type.headD 0)))

/-- The loop. Each round reads a byte at least, so there are no more rounds than bytes. -/
def readRequests (bytes : ℕ) : ℕ → Reading → Text → Option (Except Refusal Reading)
  | rounds, s, t =>
    match scanWord t with
    | none => some (.ok s)
    | some (type, t) =>
      if maxline ≤ type.length then none
      else
        match rounds with
        | 0 => none
        | rounds + 1 =>
          match readRequest bytes s type t with
          | none => none
          | some (.error e) => some (.error e)
          | some (.ok (s, t)) => readRequests bytes rounds s t

/-- The bytes of the array of `n` requests, and of one of `n` pointers. -/
def opsBytes (n : ℤ) : ℕ := sizeofTraceop * toWord n % 2 ^ 32

def blocksBytes (n : ℤ) : ℕ := sizeofPointer * toWord n % 2 ^ 32

/-- The part of read_trace behind the header and the first array. -/
def readBody (malloc : Malloc) (numIds numOps : ℤ) (t : Text) : Option (Except Refusal Trace) :=
  if malloc 3 (blocksBytes numIds) = false then some (.error (.mallocFailed 3))
  else if malloc 4 (blocksBytes numIds) = false then some (.error (.mallocFailed 4))
  else
    match readRequests (opsBytes numOps) t.length ⟨0, none, 0, []⟩ t with
    | none => none
    | some (.error e) => some (.error e)
    | some (.ok s) =>
      -- `num_ids - 1` overflows for the least int.
      if numIds = -2 ^ 31 then none
      else if s.maxIndex ≠ toWord (numIds - 1) then some (.error .wrongIds)
      else if toWord numOps ≠ s.ops.length then some (.error .wrongOps)
      else some (.ok ⟨numIds, numOps, s.ops⟩)

/-- `read_trace` of a file with this text; no text is a file that cannot be opened. -/
def readTrace (malloc : Malloc) (file : Option Text) : Option (Except Refusal Trace) :=
  if malloc 1 sizeofTrace = false then some (.error (.mallocFailed 1))
  else
    match file with
    | none => some (.error .notOpened)
    | some t => do
      let (_, t) ← scanInt none t
      let (numIds, t) ← scanInt none t
      let (numOps, t) ← scanInt none t
      let (_, t) ← scanInt none t
      let numOps ← numOps
      if malloc 2 (opsBytes numOps) = false then some (.error (.mallocFailed 2))
      else do readBody malloc (← numIds) numOps t

def reach : TraceOp → ℕ
  | .alloc index _ | .realloc index _ => index
  | .free _ => 0

def Words : TraceOp → Prop
  | .alloc index size | .realloc index size => index < 2 ^ 32 ∧ size < 2 ^ 32
  | .free index => index < 2 ^ 32

def maxIndex (ops : List TraceOp) : ℕ := ops.foldl (fun m op => max m (reach op)) 0

/-- What read_trace returns: as many requests as announced, and the largest index of the
requests that allocate is the last id. Nothing is said of the indices that are freed. -/
structure Acceptable (malloc : Malloc) (trace : Trace) : Prop where
  numOps : trace.numOps = trace.ops.length
  room : sizeofTraceop * trace.ops.length < 2 ^ 32
  numIds : -2 ^ 31 < trace.numIds ∧ trace.numIds < 2 ^ 31
  last : maxIndex trace.ops = toWord (trace.numIds - 1)
  words : ∀ op ∈ trace.ops, Words op
  memory : malloc 1 sizeofTrace = true ∧ malloc 2 (opsBytes trace.numOps) = true ∧
    malloc 3 (blocksBytes trace.numIds) = true ∧ malloc 4 (blocksBytes trace.numIds) = true

def opLine : TraceOp → Text
  | .alloc index size => 97 :: space :: (printNat index ++ space :: printNat size)
  | .realloc index size => 114 :: space :: (printNat index ++ space :: printNat size)
  | .free index => 102 :: space :: printNat index

def bodyText (ops : List TraceOp) : Text := newline :: ops.flatMap fun op => opLine op ++ [newline]

/-- The file of a trace; the suggested heap size and the weight are not used. -/
def traceText (suggHeapsize weight : ℤ) (trace : Trace) : Text :=
  printZ suggHeapsize ++ newline :: (printZ trace.numIds ++ newline :: (printZ trace.numOps ++
    newline :: (printZ weight ++ bodyText trace.ops)))

section Accepted

variable {malloc : Malloc} {bytes rounds : ℕ} {s s' : Reading} {t type rest : Text}
  {trace : Trace}

theorem maxIndex_append (ops : List TraceOp) (op : TraceOp) :
    maxIndex (ops ++ [op]) = max (maxIndex ops) (reach op) := by
  rw [maxIndex, List.foldl_append]
  rfl

/-- What holds of the variables between two rounds. -/
structure Sound (bytes : ℕ) (s : Reading) : Prop where
  index : s.index < 2 ^ 32
  size : ∀ n, s.size = some n → n < 2 ^ 32
  last : s.maxIndex = maxIndex s.ops
  words : ∀ op ∈ s.ops, Words op
  room : s.ops = [] ∨ sizeofTraceop * s.ops.length ≤ bytes

theorem sound_empty (bytes : ℕ) : Sound bytes ⟨0, none, 0, []⟩ where
  index := by norm_num
  size := nofun
  last := rfl
  words := fun op hop => (List.not_mem_nil hop).elim
  room := Or.inl rfl

theorem scanPair_sound (hs : Sound bytes s) (h : scanPair s t = some (s', rest)) :
    Sound bytes s' := by
  obtain ⟨⟨index, t₁⟩, hscan, h⟩ := Option.bind_eq_some_iff.mp h
  obtain ⟨-, hindex⟩ := scanUnsigned_spec hscan
  cases index with
  | none =>
    obtain ⟨rfl, -⟩ := Prod.mk.inj (Option.some.inj h)
    exact hs
  | some index =>
    obtain ⟨⟨size, t₂⟩, hscan₂, h⟩ := Option.bind_eq_some_iff.mp h
    obtain ⟨-, hsize⟩ := scanUnsigned_spec hscan₂
    obtain ⟨rfl, -⟩ := Prod.mk.inj (Option.some.inj h)
    refine { hs with index := hindex _ rfl, size := fun n hn => ?_ }
    cases size with
    | none => exact hs.size n hn
    | some k => exact hsize n hn

theorem scanIndex_sound (hs : Sound bytes s) (h : scanIndex s t = some (s', rest)) :
    Sound bytes s' := by
  obtain ⟨⟨index, t₁⟩, hscan, h⟩ := Option.bind_eq_some_iff.mp h
  obtain ⟨-, hindex⟩ := scanUnsigned_spec hscan
  cases index with
  | none =>
    obtain ⟨rfl, -⟩ := Prod.mk.inj (Option.some.inj h)
    exact hs
  | some index =>
    obtain ⟨rfl, -⟩ := Prod.mk.inj (Option.some.inj h)
    exact { hs with index := hindex _ rfl }

/-- A request is stored where there is room for it. -/
theorem put_sound {op : TraceOp} (hs : Sound bytes s) (hop : Words op)
    (h : s.put bytes op = some s') :
    Sound bytes { s' with maxIndex := max s'.maxIndex (reach op) } ∧
      s' = { s with ops := s.ops ++ [op] } := by
  rw [Reading.put] at h
  split at h
  · next hroom =>
    obtain rfl := Option.some.inj h
    refine ⟨{ hs with last := ?_, words := ?_, room := Or.inr ?_ }, rfl⟩
    · rw [maxIndex_append, ← hs.last]
    · intro op' hmem
      rcases List.mem_append.mp hmem with hmem | hmem
      · exact hs.words op' hmem
      · rw [List.mem_singleton.mp hmem]
        exact hop
    · rwa [List.length_append]
  · cases h

/-- A request that allocates, in either of the two ways. -/
theorem put_pair_sound {op : ℕ → ℕ → TraceOp} (hop : ∀ i n, reach (op i n) = i ∧
      (Words (op i n) ↔ i < 2 ^ 32 ∧ n < 2 ^ 32)) (hs : Sound bytes s)
    (h : (do
      let (s, t) ← scanPair s t
      let s ← s.put bytes (op s.index (← s.size))
      some (.ok ({ s with maxIndex := max s.maxIndex s.index }, t)) :
        Option (Except Refusal (Reading × Text))) = some (.ok (s', rest))) :
    Sound bytes s' := by
  obtain ⟨⟨s₁, t₁⟩, hscan, h⟩ := Option.bind_eq_some_iff.mp h
  obtain ⟨n, hn, h⟩ := Option.bind_eq_some_iff.mp h
  obtain ⟨s₂, hput, h⟩ := Option.bind_eq_some_iff.mp h
  have hs₁ := scanPair_sound hs hscan
  obtain ⟨hs₂, rfl⟩ := put_sound hs₁ ((hop s₁.index n).2.mpr ⟨hs₁.index, hs₁.size n hn⟩) hput
  obtain ⟨rfl, -⟩ := Prod.mk.inj (Except.ok.inj (Option.some.inj h))
  rwa [(hop s₁.index n).1] at hs₂

theorem readRequest_sound (hs : Sound bytes s)
    (h : readRequest bytes s type t = some (.ok (s', rest))) : Sound bytes s' := by
  rw [readRequest] at h
  split at h
  · exact put_pair_sound (fun _ _ => ⟨rfl, Iff.rfl⟩) hs h
  · split at h
    · exact put_pair_sound (fun _ _ => ⟨rfl, Iff.rfl⟩) hs h
    · split at h
      · obtain ⟨⟨s₁, t₁⟩, hscan, h⟩ := Option.bind_eq_some_iff.mp h
        obtain ⟨s₂, hput, h⟩ := Option.bind_eq_some_iff.mp h
        have hs₁ := scanIndex_sound hs hscan
        have hop : Words (.free s₁.index) := hs₁.index
        obtain ⟨hs₂, rfl⟩ := put_sound hs₁ hop hput
        obtain ⟨rfl, -⟩ := Prod.mk.inj (Except.ok.inj (Option.some.inj h))
        simpa only [reach, Nat.max_zero] using hs₂
      · cases h

theorem readRequests_sound (hs : Sound bytes s)
    (h : readRequests bytes rounds s t = some (.ok s')) : Sound bytes s' := by
  induction rounds generalizing s t with
  | zero =>
    rw [readRequests] at h
    split at h
    · obtain rfl := Except.ok.inj (Option.some.inj h)
      exact hs
    · split at h <;> cases h
  | succ rounds ih =>
    rw [readRequests] at h
    split at h
    · obtain rfl := Except.ok.inj (Option.some.inj h)
      exact hs
    · split at h
      · cases h
      · simp only at h
        split at h
        · cases h
        · cases h
        · next hread => exact ih (readRequest_sound hs hread) h

theorem readBody_sound {numIds numOps : ℤ} (h1 : malloc 1 sizeofTrace = true)
    (h2 : malloc 2 (opsBytes numOps) = true) (hids : -2 ^ 31 ≤ numIds ∧ numIds < 2 ^ 31)
    (hops : -2 ^ 31 ≤ numOps ∧ numOps < 2 ^ 31)
    (h : readBody malloc numIds numOps t = some (.ok trace)) : Acceptable malloc trace := by
  rw [readBody] at h
  split at h
  · cases h
  next h3 =>
  split at h
  · cases h
  next h4 =>
  split at h
  · cases h
  · cases h
  next s hread =>
  split at h
  · cases h
  next hmin =>
  split at h
  · cases h
  next hlast =>
  split at h
  · cases h
  next hlen =>
  obtain rfl := Except.ok.inj (Option.some.inj h)
  have hs : Sound (opsBytes numOps) s := readRequests_sound (sound_empty _) hread
  have hbytes : opsBytes numOps < 2 ^ 32 := Nat.mod_lt _ (by norm_num)
  have hroom : sizeofTraceop * s.ops.length < 2 ^ 32 := by
    rcases hs.room with hnil | hroom
    · rw [hnil]
      norm_num
    · omega
  rw [ne_eq, not_not] at hlast hlen
  refine ⟨?_, hroom, ⟨lt_of_le_of_ne hids.1 (Ne.symm hmin), hids.2⟩, ?_, hs.words,
    h1, h2, by simpa using h3, by simpa using h4⟩
  · simp only [toWord, sizeofTraceop] at hlen hroom ⊢
    omega
  · rw [← hs.last]
    exact hlast

/-- What read_trace returns is acceptable, whatever the file. -/
theorem readTrace_sound {file : Option Text} (h : readTrace malloc file = some (.ok trace)) :
    Acceptable malloc trace := by
  cases file with
  | none =>
    simp only [readTrace] at h
    split at h <;> cases h
  | some t =>
    simp only [readTrace] at h
    split at h
    · cases h
    next h1 =>
    simp only [Option.bind_eq_bind, Option.bind_eq_some_iff, Prod.exists] at h
    obtain ⟨sugg, t₁, -, ids, t₂, hids, ops, t₃, hops, weight, t₄, -, numOps, rfl, h⟩ := h
    split at h
    · cases h
    next h2 =>
    obtain ⟨numIds, rfl, h⟩ := Option.bind_eq_some_iff.mp h
    have hint : ∀ {z : ℤ} {u v : Text}, scanInt none u = some (some z, v) →
        -2 ^ 31 ≤ z ∧ z < 2 ^ 31 := by
      intro z u v hscan
      rcases (scanInt_spec hscan).2 with hz | ⟨z', hz, hrange⟩
      · cases hz
      · rwa [Option.some.inj hz]
    exact readBody_sound (by simpa using h1) (by simpa using h2) (hint hids) (hint hops) h

end Accepted

section RoundTrip

variable {malloc : Malloc} {bytes rounds : ℕ} {s : Reading} {op : TraceOp} {ops : List TraceOp}
  {c : UInt8} {u : Text}

theorem isSpace_newline : isSpace newline = true := by decide

theorem isDigit_newline : isDigit newline = false := by decide

/-- The letter of a request is a word. -/
theorem scanWord_letter (hc : isSpace c = false) (u : Text) :
    scanWord (newline :: c :: space :: u) = some ([c], space :: u) := by
  have hword := scanWord_word (List.cons_ne_nil c []) (by simpa using hc)
    (show isSpace space = true by decide) u
  rw [scanWord_space isSpace_newline]
  exact hword

theorem scanPair_line {index size : ℕ} (hindex : index < 2 ^ 32) (hsize : size < 2 ^ 32)
    (s : Reading) (u : Text) :
    scanPair s (space :: (printNat index ++ space :: (printNat size ++ newline :: u))) =
      some ({ s with index := index, size := some size }, newline :: u) := by
  rw [scanPair, scanUnsigned_space (by decide), scanUnsigned_nat hindex (by decide)]
  simp only [Option.bind_eq_bind, Option.bind_some, scanUnsigned_space (c := space) (by decide),
    scanUnsigned_nat hsize isDigit_newline, Option.some_or]

theorem scanIndex_line {index : ℕ} (hindex : index < 2 ^ 32) (s : Reading) (u : Text) :
    scanIndex s (space :: (printNat index ++ newline :: u)) =
      some ({ s with index := index }, newline :: u) := by
  rw [scanIndex, scanUnsigned_space (by decide), scanUnsigned_nat hindex isDigit_newline]
  rfl

def Reading.after (s : Reading) : TraceOp → Reading
  | .alloc index size => ⟨index, some size, max s.maxIndex index, s.ops ++ [.alloc index size]⟩
  | .realloc index size =>
    ⟨index, some size, max s.maxIndex index, s.ops ++ [.realloc index size]⟩
  | .free index => { s with index := index, ops := s.ops ++ [.free index] }

theorem after_ops (s : Reading) (op : TraceOp) : (s.after op).ops = s.ops ++ [op] := by
  cases op <;> rfl

/-- A line is read as the request that it was printed for. -/
theorem readRequest_line (s : Reading) (hop : Words op)
    (hroom : sizeofTraceop * (s.ops.length + 1) ≤ bytes) (u : Text) :
    ∃ type t, scanWord (newline :: (opLine op ++ newline :: u)) = some (type, t) ∧
      type.length < maxline ∧
      readRequest bytes s type t = some (.ok (s.after op, newline :: u)) := by
  cases op with
  | alloc index size =>
    have htext : opLine (.alloc index size) ++ newline :: u = 97 :: space ::
        (printNat index ++ space :: (printNat size ++ newline :: u)) := by simp [opLine]
    refine ⟨[97], _, htext ▸ scanWord_letter (by decide) _, by decide, ?_⟩
    rw [readRequest, List.head?_cons, if_pos rfl, scanPair_line hop.1 hop.2]
    simp only [Option.bind_eq_bind, Option.bind_some, Reading.put, if_pos hroom]
    rfl
  | realloc index size =>
    have htext : opLine (.realloc index size) ++ newline :: u = 114 :: space ::
        (printNat index ++ space :: (printNat size ++ newline :: u)) := by simp [opLine]
    refine ⟨[114], _, htext ▸ scanWord_letter (by decide) _, by decide, ?_⟩
    rw [readRequest, List.head?_cons, if_neg (by decide), if_pos rfl, scanPair_line hop.1 hop.2]
    simp only [Option.bind_eq_bind, Option.bind_some, Reading.put, if_pos hroom]
    rfl
  | free index =>
    have htext : opLine (.free index) ++ newline :: u = 102 :: space ::
        (printNat index ++ newline :: u) := by simp [opLine]
    refine ⟨[102], _, htext ▸ scanWord_letter (by decide) _, by decide, ?_⟩
    rw [readRequest, List.head?_cons, if_neg (by decide), if_neg (by decide), if_pos rfl,
      scanIndex_line hop]
    simp only [Option.bind_eq_bind, Option.bind_some, Reading.put, if_pos hroom]
    rfl

/-- The lines are read in order, up to the end of the file. -/
theorem readRequests_lines (hops : ∀ op ∈ ops, Words op)
    (hroom : sizeofTraceop * (s.ops.length + ops.length) ≤ bytes) (hrounds : ops.length ≤ rounds) :
    ∃ s', readRequests bytes rounds s (bodyText ops) = some (.ok s') ∧
      s'.ops = s.ops ++ ops := by
  induction ops generalizing s rounds with
  | nil =>
    refine ⟨s, ?_, (List.append_nil _).symm⟩
    have hend : scanWord (bodyText []) = none := by decide
    cases rounds with
    | zero => rw [readRequests, hend]
    | succ rounds => rw [readRequests, hend]
  | cons op ops ih =>
    obtain ⟨rounds, rfl⟩ := Nat.exists_eq_succ_of_ne_zero
      (show rounds ≠ 0 by rw [List.length_cons] at hrounds; omega)
    have htext : bodyText (op :: ops) = newline :: (opLine op ++ newline ::
        ops.flatMap fun op => opLine op ++ [newline]) := by
      simp [bodyText]
    simp only [List.length_cons, sizeofTraceop] at hroom hrounds
    obtain ⟨type, t, hword, hlen, hread⟩ := readRequest_line s (hops op List.mem_cons_self)
      (show sizeofTraceop * (s.ops.length + 1) ≤ bytes by simp only [sizeofTraceop]; omega)
      (ops.flatMap fun op => opLine op ++ [newline])
    have hroom' : sizeofTraceop * ((s.after op).ops.length + ops.length) ≤ bytes := by
      simp only [after_ops, List.length_append, List.length_singleton, sizeofTraceop]
      omega
    obtain ⟨s', hrest, hs'⟩ := ih (fun op' h => hops op' (List.mem_cons_of_mem op h)) hroom'
      (Nat.le_of_succ_le_succ hrounds)
    refine ⟨s', ?_, ?_⟩
    · rw [htext, readRequests, hword]
      simp only [if_neg (not_le.mpr hlen), hread]
      exact hrest
    · rw [hs', after_ops, List.append_assoc, List.singleton_append]

theorem toWord_natCast {n : ℕ} (hn : n < 2 ^ 32) : toWord n = n := by
  rw [toWord]
  omega

/-- The file of an acceptable trace is read as that trace, whatever its two numbers that
are not used. -/
theorem readTrace_text {sugg weight : ℤ} {trace : Trace} (h : Acceptable malloc trace)
    (hsugg : -2 ^ 31 ≤ sugg ∧ sugg < 2 ^ 31) (hweight : -2 ^ 31 ≤ weight ∧ weight < 2 ^ 31) :
    readTrace malloc (some (traceText sugg weight trace)) = some (.ok trace) := by
  obtain ⟨h1, h2, h3, h4⟩ := h.memory
  have hroom := h.room
  simp only [sizeofTraceop] at hroom
  have hlen : trace.ops.length < 2 ^ 31 := by omega
  have hword : toWord trace.numOps = trace.ops.length := by
    rw [h.numOps, toWord_natCast (by omega)]
  have hbytes : opsBytes trace.numOps = sizeofTraceop * trace.ops.length := by
    rw [opsBytes, hword, Nat.mod_eq_of_lt h.room]
  have hnumOps : -2 ^ 31 ≤ trace.numOps ∧ trace.numOps < 2 ^ 31 := by
    rw [h.numOps]
    omega
  have hlines : trace.ops.length ≤ (bodyText trace.ops).length := by
    rw [bodyText, List.length_cons]
    induction trace.ops with
    | nil => exact Nat.zero_le _
    | cons op ops ih =>
      simp only [List.flatMap_cons, List.length_append, List.length_cons] at ih ⊢
      omega
  have hnl := isDigit_newline
  have hsp := isSpace_newline
  have hall : sizeofTraceop * (([] : List TraceOp).length + trace.ops.length) ≤
      opsBytes trace.numOps := by rw [hbytes, List.length_nil, Nat.zero_add]
  obtain ⟨s, hread, hops⟩ := readRequests_lines (s := ⟨0, none, 0, []⟩) h.words hall hlines
  rw [List.nil_append] at hops
  have hlast : s.maxIndex = toWord (trace.numIds - 1) := by
    rw [(readRequests_sound (sound_empty _) hread).last, hops, h.last]
  have hmin : trace.numIds ≠ -2 ^ 31 := ne_of_gt h.numIds.1
  have hbody : readBody malloc trace.numIds trace.numOps (bodyText trace.ops) =
      some (.ok trace) := by
    rw [readBody, if_neg (by simp [h3]), if_neg (by simp [h4]), hread]
    simp only [if_neg hmin, hlast, hops, hword, ne_eq, not_true_eq_false, if_false]
  rw [readTrace, if_neg (by simp [h1])]
  simp only [traceText]
  rw [scanInt_printZ hsugg.1 hsugg.2 hnl]
  simp only [Option.bind_eq_bind, Option.bind_some, scanInt_space hsp]
  rw [scanInt_printZ h.numIds.1.le h.numIds.2 hnl]
  simp only [Option.bind_some, scanInt_space hsp]
  rw [scanInt_printZ hnumOps.1 hnumOps.2 hnl]
  simp only [Option.bind_some, scanInt_space hsp]
  rw [bodyText, scanInt_printZ hweight.1 hweight.2 hnl]
  simp only [Option.bind_some, h2, Bool.true_eq_false, if_false]
  exact hbody

theorem newline_notMem_printNat (n : ℕ) : newline ∉ printNat n := fun h => by
  have hdigit := printNat_digits n newline h
  cases hdigit

theorem newline_notMem_printZ (z : ℤ) : newline ∉ printZ z := by
  rw [printZ]
  split
  · rw [List.mem_cons, not_or]
    exact ⟨by decide, newline_notMem_printNat _⟩
  · exact newline_notMem_printNat _

theorem newline_notMem_opLine (op : TraceOp) : newline ∉ opLine op := by
  cases op <;>
    simp only [opLine, List.mem_cons, List.mem_append, newline_notMem_printNat, not_or,
      or_false] <;>
    decide

/-- The lines of the requests, and nothing behind the last newline. -/
theorem splitOn_opLines (ops : List TraceOp) :
    (ops.flatMap fun op => opLine op ++ [newline]).splitOn newline = ops.map opLine ++ [[]] := by
  induction ops with
  | nil => rfl
  | cons op ops ih =>
    rw [List.flatMap_cons, List.append_assoc, List.singleton_append,
      List.splitOn_append_cons_self_of_not_mem (newline_notMem_opLine op), ih]
    rfl

theorem splitOn_traceText (sugg weight : ℤ) (trace : Trace) :
    (traceText sugg weight trace).splitOn newline =
      [printZ sugg, printZ trace.numIds, printZ trace.numOps, printZ weight] ++
        (trace.ops.map opLine ++ [[]]) := by
  rw [traceText, bodyText]
  iterate 4 rw [List.splitOn_append_cons_self_of_not_mem (newline_notMem_printZ _)]
  rw [splitOn_opLines]
  rfl

/-- Reading undoes printing, and a request stands on the line that malloc_error names. -/
theorem trace_round_trip {sugg weight : ℤ} {trace : Trace} (h : Acceptable malloc trace)
    (hsugg : -2 ^ 31 ≤ sugg ∧ sugg < 2 ^ 31) (hweight : -2 ^ 31 ≤ weight ∧ weight < 2 ^ 31) :
    readTrace malloc (some (traceText sugg weight trace)) = some (.ok trace) ∧
      ∀ i op, trace.ops[i]? = some op →
        ((traceText sugg weight trace).splitOn newline)[linenum i - 1]? = some (opLine op) := by
  refine ⟨readTrace_text h hsugg hweight, fun i op hop => ?_⟩
  have hi : i < (trace.ops.map opLine).length := by
    rw [List.length_map]
    exact (List.getElem?_eq_some_iff.mp hop).1
  have hline : linenum i - 1 = 4 + i := by
    rw [linenum]
    omega
  have hskip : 4 + i - [printZ sugg, printZ trace.numIds, printZ trace.numOps,
      printZ weight].length = i := Nat.add_sub_cancel_left 4 i
  rw [splitOn_traceText, hline, List.getElem?_append_right (Nat.le_add_right 4 i), hskip,
    List.getElem?_append_left hi, List.getElem?_map, hop]
  rfl

def shortTrace : Trace := ⟨1, 2, [.alloc 0 16, .free 0]⟩

theorem shortTrace_acceptable : Acceptable (fun _ _ => true) shortTrace where
  numOps := rfl
  room := by decide
  numIds := by decide
  last := by decide
  words := by
    intro op hop
    rcases List.mem_cons.mp hop with rfl | hop
    · exact ⟨by norm_num, by norm_num⟩
    · obtain rfl := List.mem_singleton.mp hop
      exact show 0 < 2 ^ 32 by norm_num
  memory := ⟨rfl, rfl, rfl, rfl⟩

theorem trace_round_trip_short :
    readTrace (fun _ _ => true) (some (traceText 20000 1 shortTrace)) = some (.ok shortTrace) ∧
      ∀ i op, shortTrace.ops[i]? = some op →
        ((traceText 20000 1 shortTrace).splitOn newline)[linenum i - 1]? = some (opLine op) :=
  trace_round_trip shortTrace_acceptable (by norm_num) (by norm_num)

/-- A trace is the result for some file exactly when it is acceptable. -/
theorem trace_accepted_iff (malloc : Malloc) (trace : Trace) :
    (∃ file, readTrace malloc file = some (.ok trace)) ↔ Acceptable malloc trace :=
  ⟨fun ⟨_, h⟩ => readTrace_sound h, fun h =>
    ⟨some (traceText 0 1 trace), readTrace_text h (by norm_num) (by norm_num)⟩⟩

end RoundTrip

end SystemSoftware.TraceFile
