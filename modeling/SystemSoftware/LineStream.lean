import SystemSoftware.RioLines

/-!
Reading a stream line by line. Repeated calls of rio_readlineb give the stream cut
after each newline and after each `maxlen - 1` bytes without one, whatever pieces
the bytes come in: a cut depends on the bytes already stored and on the next one.
-/
namespace SystemSoftware.LineStream

open DecimalText RioBuffer RioLines

/-- The pieces of a stream, when `stored` is the beginning of the first one. -/
def piecesFrom (m : ℕ) (stored : Text) : Text → List Text
  | [] => if stored = [] then [] else [stored]
  | c :: s =>
    if c = newline ∨ stored.length + 1 = m then (stored ++ [c]) :: piecesFrom m [] s
    else piecesFrom m (stored ++ [c]) s

/-- The stream cut after each newline and after each run of `m` bytes without a newline. -/
def pieces (m : ℕ) (s : Text) : List Text := piecesFrom m [] s

def readLines (maxlen : ℕ) : ℕ → Rio → List Outcome → Option (List Line)
  | 0, _, _ => some []
  | k + 1, rp, outcomes => do
    let line ← rioReadlineb rp maxlen outcomes
    let rest ← readLines maxlen k line.rio line.outcomes
    some (line :: rest)

/-- What a call leaves in `usrbuf`. The returns before the end of the loop write no
terminator, and they are the ones whose value is not positive. -/
def usrbufAfter (buf : Text) (line : Line) : Text :=
  if 0 < line.rc then line.bytes ++ 0 :: buf.drop (line.bytes.length + 1)
  else line.bytes ++ buf.drop line.bytes.length

/-- The first piece and what is behind it, unless the stream ends before the piece does. -/
def cutLine : ℕ → Text → Option (Text × Text)
  | 0, s => some ([], s)
  | _ + 1, [] => none
  | left + 1, c :: s =>
    if c = newline then some ([c], s)
    else (cutLine left s).map fun r => (c :: r.1, r.2)

section Pieces

variable {m left : ℕ} {s l r : Text}

theorem piecesFrom_cut : ∀ {left : ℕ} {s l r : Text} (stored : Text), 0 < left →
    stored.length + left = m → cutLine left s = some (l, r) →
    piecesFrom m stored s = (stored ++ l) :: pieces m r := by
  intro left
  induction left with
  | zero => exact fun _ h => absurd h (Nat.lt_irrefl 0)
  | succ left ih =>
    intro s l r stored _ hroom hcut
    cases s with
    | nil => cases hcut
    | cons c s =>
      rw [cutLine] at hcut
      rw [piecesFrom]
      split at hcut
      · next hc =>
        obtain ⟨rfl, rfl⟩ := Prod.mk.inj (Option.some.inj hcut)
        rw [if_pos (Or.inl hc)]
        rfl
      · next hc =>
        obtain ⟨⟨l', r'⟩, hnext, h⟩ := Option.map_eq_some_iff.mp hcut
        obtain ⟨rfl, rfl⟩ := Prod.mk.inj h
        by_cases hfull : left = 0
        · subst hfull
          obtain ⟨rfl, rfl⟩ := Prod.mk.inj (Option.some.inj hnext)
          rw [if_pos (Or.inr hroom)]
          rfl
        · have hnot : ¬ (c = newline ∨ stored.length + 1 = m) := by
            rintro (h | h)
            · exact hc h
            · omega
          rw [if_neg hnot, ih (stored ++ [c]) (Nat.pos_of_ne_zero hfull) (by simp; omega) hnext,
            List.append_assoc, List.singleton_append]

theorem piecesFrom_rest : ∀ {left : ℕ} {s : Text} (stored : Text), stored.length + left = m →
    cutLine left s = none →
    piecesFrom m stored s = if stored ++ s = [] then [] else [stored ++ s] := by
  intro left
  induction left with
  | zero => exact fun _ _ h => by cases h
  | succ left ih =>
    intro s stored hroom hcut
    cases s with
    | nil => rw [piecesFrom, List.append_nil]
    | cons c s =>
      rw [cutLine] at hcut
      split at hcut
      · cases hcut
      · next hc =>
        have hcut' : cutLine left s = none := by simpa using hcut
        have hne : left ≠ 0 := by
          rintro rfl
          cases hcut'
        have hnot : ¬ (c = newline ∨ stored.length + 1 = m) := by
          rintro (h | h)
          · exact hc h
          · omega
        rw [piecesFrom, if_neg hnot, ih (stored ++ [c]) (by simp; omega) hcut', List.append_assoc,
          List.singleton_append]

theorem pieces_cut (hm : 0 < m) (h : cutLine m s = some (l, r)) : pieces m s = l :: pieces m r :=
  piecesFrom_cut [] hm (Nat.zero_add m) h

theorem pieces_rest (h : cutLine m s = none) : pieces m s = if s = [] then [] else [s] :=
  piecesFrom_rest [] (Nat.zero_add m) h

/-- Nothing of the stream is lost. -/
theorem piecesFrom_flatten (stored s : Text) : (piecesFrom m stored s).flatten = stored ++ s := by
  induction s generalizing stored with
  | nil =>
    rw [piecesFrom, List.append_nil]
    split
    · next h => exact h.symm
    · exact List.append_nil stored
  | cons c s ih =>
    rw [piecesFrom]
    split
    · rw [List.flatten_cons, ih, List.nil_append, List.append_assoc, List.singleton_append]
    · rw [ih, List.append_assoc, List.singleton_append]

theorem piecesFrom_length_le {stored : Text} (hroom : stored.length < m) :
    ∀ p ∈ piecesFrom m stored s, p.length ≤ m := by
  induction s generalizing stored with
  | nil =>
    intro p hp
    rw [piecesFrom] at hp
    split at hp
    · cases hp
    · rw [List.mem_singleton.mp hp]
      exact hroom.le
  | cons c s ih =>
    intro p hp
    have hlen : (stored ++ [c]).length = stored.length + 1 := List.length_append
    rw [piecesFrom] at hp
    split at hp
    · rcases List.mem_cons.mp hp with rfl | hp
      · rw [hlen]
        exact hroom
      · exact ih (show ([] : Text).length < m from Nat.zero_lt_of_lt hroom) p hp
    · next hnot =>
      refine ih ?_ p hp
      rw [hlen]
      exact lt_of_le_of_ne hroom fun h => hnot (Or.inr h)

theorem pieces_flatten (m : ℕ) (s : Text) : (pieces m s).flatten = s := piecesFrom_flatten [] s

theorem pieces_length_le (hm : 0 < m) : ∀ p ∈ pieces m s, p.length ≤ m := piecesFrom_length_le hm

end Pieces

section Calls

variable {u t : Text} {c : UInt8} {q E : List Outcome}

theorem rioRead_eintr (o : List Outcome) : rioRead ⟨[]⟩ 1 (.eintr :: o) = rioRead ⟨[]⟩ 1 o := by
  simp [rioRead, rioFill]

/-- The next byte is read, wherever it is. -/
theorem rioRead_next (hquiet : Quiet q) (h : u ++ received q = c :: t) (E : List Outcome) :
    ∃ u' q', Quiet q' ∧ u' ++ received q' = t ∧
      rioRead ⟨u⟩ 1 (q ++ E) = some (1, [c], ⟨u'⟩, q' ++ E) := by
  cases u with
  | cons d u =>
    obtain ⟨rfl, ht⟩ := List.cons.inj h
    exact ⟨u, q, hquiet, ht, rioRead_unread d u _⟩
  | nil =>
    induction q with
    | nil => cases h
    | cons x q ih =>
      cases x with
      | eintr =>
        obtain ⟨u', q', hquiet', ht, hread⟩ := ih (quiet_eintr.mp hquiet) h
        exact ⟨u', q', hquiet', ht, (rioRead_eintr _).trans hread⟩
      | data d r =>
        obtain ⟨rfl, ht⟩ := List.cons.inj h
        have hrest : Quiet q := (quiet_append.mp (show Quiet ([.data d r] ++ q) from hquiet)).2
        exact ⟨r, q, hrest, ht, rioRead_data d r _⟩
      | eof => exact absurd List.mem_cons_self hquiet.1
      | error => exact absurd List.mem_cons_self hquiet.2

/-- Behind the last byte the end of the file is read. -/
theorem rioRead_eof (hquiet : Quiet q) (h : received q = []) (E : List Outcome) :
    rioRead ⟨[]⟩ 1 (q ++ .eof :: E) = some (0, [], ⟨[]⟩, E) := by
  induction q with
  | nil => rfl
  | cons x q ih =>
    cases x with
    | eintr => exact (rioRead_eintr _).trans (ih (quiet_eintr.mp hquiet) h)
    | data d r => cases h
    | eof => exact absurd List.mem_cons_self hquiet.1
    | error => exact absurd List.mem_cons_self hquiet.2

/-- A byte that is stored is counted. -/
theorem count_cons (n : ℕ) (c : UInt8) (l : Text) :
    ((n + 1 : ℕ) : Int) - 1 + l.length = (n : Int) - 1 + (c :: l).length := by
  rw [List.length_cons]
  omega

/-- A call ends behind the first piece of the stream. -/
theorem readlineLoop_cut (E : List Outcome) : ∀ {left : ℕ} (n : ℕ) (bytes : Text) {u : Text}
    {q : List Outcome} {l r : Text}, Quiet q → cutLine left (u ++ received q) = some (l, r) →
    ∃ u' q', Quiet q' ∧ u' ++ received q' = r ∧ readlineLoop left n bytes ⟨u⟩ (q ++ E) =
      some ⟨(n : Int) - 1 + l.length, bytes ++ l, ⟨u'⟩, q' ++ E⟩ := by
  intro left
  induction left with
  | zero =>
    intro n bytes u q l r hquiet hcut
    obtain ⟨rfl, rfl⟩ := Prod.mk.inj (Option.some.inj hcut)
    exact ⟨u, q, hquiet, rfl, by simp [readlineLoop]⟩
  | succ left ih =>
    intro n bytes u q l r hquiet hcut
    cases hall : u ++ received q with
    | nil =>
      rw [hall] at hcut
      cases hcut
    | cons c t =>
      rw [hall, cutLine] at hcut
      obtain ⟨u₁, q₁, hquiet₁, ht, hread⟩ := rioRead_next hquiet hall E
      simp only [readlineLoop, hread, Option.bind_eq_bind, Option.bind_some, if_true,
        List.singleton_inj]
      split at hcut
      · next hc =>
        obtain ⟨rfl, rfl⟩ := Prod.mk.inj (Option.some.inj hcut)
        exact ⟨u₁, q₁, hquiet₁, ht, by simp [hc]⟩
      · next hc =>
        obtain ⟨⟨l', r'⟩, hnext, h⟩ := Option.map_eq_some_iff.mp hcut
        obtain ⟨rfl, rfl⟩ := Prod.mk.inj h
        rw [← ht] at hnext
        obtain ⟨u', q', hquiet', hr, hloop⟩ :=
          ih (n + 1) (bytes ++ [c]) hquiet₁ hnext
        refine ⟨u', q', hquiet', hr, ?_⟩
        rw [if_neg hc, hloop, List.append_assoc, List.singleton_append, count_cons n c]

/-- A call that meets the end of the file returns what is left. -/
theorem readlineLoop_rest (E : List Outcome) : ∀ {left : ℕ} (n : ℕ) (bytes : Text) {u : Text}
    {q : List Outcome}, Quiet q → cutLine left (u ++ received q) = none →
    readlineLoop left n bytes ⟨u⟩ (q ++ .eof :: E) =
      some ⟨(n : Int) - 1 + (u ++ received q).length, bytes ++ (u ++ received q), ⟨[]⟩, E⟩ := by
  intro left
  induction left with
  | zero => exact fun _ _ _ _ _ hcut => by cases hcut
  | succ left ih =>
    intro n bytes u q hquiet hcut
    cases hall : u ++ received q with
    | nil =>
      obtain ⟨rfl, hnone⟩ := List.append_eq_nil_iff.mp hall
      simp only [readlineLoop, rioRead_eof hquiet hnone, Option.bind_eq_bind, Option.bind_some,
        List.append_nil, List.length_nil]
      by_cases hn : n = 1
      · simp [hn]
      · simp [hn]
    | cons c t =>
      rw [hall, cutLine] at hcut
      obtain ⟨u₁, q₁, hquiet₁, rfl, hread⟩ := rioRead_next hquiet hall (.eof :: E)
      split at hcut
      · cases hcut
      · next hc =>
        have hnext : cutLine left (u₁ ++ received q₁) = none := by simpa using hcut
        have hstored : [c] ≠ [newline] := fun h => hc (List.singleton_inj.mp h)
        simp only [readlineLoop, hread, Option.bind_eq_bind, Option.bind_some, if_true,
          if_neg hstored]
        rw [ih _ _ hquiet₁ hnext, List.append_assoc, List.singleton_append, count_cons n c]

end Calls

section Runs

variable {maxlen : ℕ} {o i E : List Outcome}

def result (line : Line) : Int × Text := (line.rc, line.bytes)

theorem rioReadlineb_cut {u l r : Text} {q : List Outcome} (hquiet : Quiet q)
    (hcut : cutLine (maxlen - 1) (u ++ received q) = some (l, r)) (E : List Outcome) :
    ∃ u' q', Quiet q' ∧ u' ++ received q' = r ∧
      rioReadlineb ⟨u⟩ maxlen (q ++ E) = some ⟨l.length, l, ⟨u'⟩, q' ++ E⟩ := by
  obtain ⟨u', q', hquiet', hr, hloop⟩ := readlineLoop_cut E 1 [] hquiet hcut
  refine ⟨u', q', hquiet', hr, hloop.trans ?_⟩
  simp

theorem rioReadlineb_rest {u : Text} {q : List Outcome} (hquiet : Quiet q)
    (hcut : cutLine (maxlen - 1) (u ++ received q) = none) (E : List Outcome) :
    rioReadlineb ⟨u⟩ maxlen (q ++ .eof :: E) =
      some ⟨(u ++ received q).length, u ++ received q, ⟨[]⟩, E⟩ := by
  refine (readlineLoop_rest E 1 [] hquiet hcut).trans ?_
  simp

/-- Behind the last byte a call returns 0. -/
theorem rioReadlineb_end {u : Text} {q : List Outcome} (hmax : 2 ≤ maxlen) (hquiet : Quiet q)
    (hnone : u ++ received q = []) (E : List Outcome) :
    rioReadlineb ⟨u⟩ maxlen (q ++ .eof :: E) = some ⟨0, [], ⟨[]⟩, E⟩ := by
  have hcut : cutLine (maxlen - 1) (u ++ received q) = none := by
    obtain ⟨left, hleft⟩ := Nat.exists_eq_succ_of_ne_zero (show maxlen - 1 ≠ 0 by omega)
    rw [hnone, hleft, cutLine]
  have hread := rioReadlineb_rest hquiet hcut E
  rw [hnone] at hread
  exact hread

theorem waits_quiet (hwait : ∀ x ∈ i, x = .eintr) : Quiet i ∧ received i = [] := by
  induction i with
  | nil => exact ⟨⟨List.not_mem_nil, List.not_mem_nil⟩, rfl⟩
  | cons x i ih =>
    obtain rfl := hwait x List.mem_cons_self
    obtain ⟨hquiet, hnone⟩ := ih fun y hy => hwait y (List.mem_cons_of_mem _ hy)
    exact ⟨quiet_eintr.mpr hquiet, hnone⟩

/-- The calls up to the one that returns 0 return the pieces of the stream. -/
theorem readLines_stream (hmax : 2 ≤ maxlen) (hwait : ∀ x ∈ i, x = .eintr) (E : List Outcome) :
    ∀ (k : ℕ) {u : Text} {q : List Outcome}, Quiet q →
      (pieces (maxlen - 1) (u ++ received q)).length = k →
      ∃ lines, readLines maxlen (k + 1) ⟨u⟩ (q ++ .eof :: (i ++ .eof :: E)) = some lines ∧
        lines.map result = (pieces (maxlen - 1) (u ++ received q)).map
          (fun p => ((p.length : Int), p)) ++ [(0, [])] := by
  have hm : 0 < maxlen - 1 := by omega
  obtain ⟨hquieti, hi⟩ := waits_quiet hwait
  intro k
  induction k with
  | zero =>
    intro u q hquiet hk
    have hnone := List.length_eq_zero_iff.mp hk
    have hempty : u ++ received q = [] := by
      rw [← pieces_flatten (maxlen - 1) (u ++ received q), hnone]
      rfl
    refine ⟨[⟨0, [], ⟨[]⟩, i ++ .eof :: E⟩], ?_, ?_⟩
    · simp [readLines, rioReadlineb_end hmax hquiet hempty (i ++ .eof :: E)]
    · rw [hnone]
      rfl
  | succ k ih =>
    intro u q hquiet hk
    cases hcut : cutLine (maxlen - 1) (u ++ received q) with
    | some p =>
      obtain ⟨l, r⟩ := p
      obtain ⟨u', q', hquiet', rfl, hread⟩ :=
        rioReadlineb_cut hquiet hcut (.eof :: (i ++ .eof :: E))
      rw [pieces_cut hm hcut] at hk ⊢
      obtain ⟨lines, hlines, hresults⟩ := ih hquiet' (Nat.succ.inj hk)
      refine ⟨⟨l.length, l, ⟨u'⟩, q' ++ .eof :: (i ++ .eof :: E)⟩ :: lines, ?_, ?_⟩
      · rw [readLines, hread, Option.bind_eq_bind, Option.bind_some, hlines]
        rfl
      · rw [List.map_cons, hresults]
        rfl
    | none =>
      have hread := rioReadlineb_rest hquiet hcut (i ++ .eof :: E)
      rw [pieces_rest hcut] at hk ⊢
      split at hk
      · cases hk
      · next hne =>
        -- the next call meets the end of the file at once
        obtain rfl : 0 = k := Nat.succ.inj hk
        have hlast := rioReadlineb_end (u := []) hmax hquieti hi E
        rw [if_neg hne]
        refine ⟨[⟨(u ++ received q).length, u ++ received q, ⟨[]⟩, i ++ .eof :: E⟩,
          ⟨0, [], ⟨[]⟩, E⟩], ?_, rfl⟩
        simp only [readLines, hread, hlast, Option.bind_eq_bind, Option.bind_some]

/-- A string that is returned with its length has its terminator inside the buffer. -/
theorem usrbufAfter_terminated {buf : Text} {line : Line} (hpos : 0 < line.rc)
    (hroom : line.bytes.length < buf.length) :
    (usrbufAfter buf line).length = buf.length ∧
      (usrbufAfter buf line)[line.bytes.length]? = some 0 ∧
      (usrbufAfter buf line).take line.bytes.length = line.bytes := by
  rw [usrbufAfter, if_pos hpos]
  refine ⟨?_, by simp, by simp⟩
  simp only [List.length_append, List.length_cons, List.length_drop]
  omega

/-- However the bytes of a stream come in, the calls return the stream cut after each
newline and after each `maxlen - 1` bytes without one, and then 0. -/
theorem lines_of_stream (hmax : 2 ≤ maxlen) (hquiet : Quiet o) (hwait : ∀ x ∈ i, x = .eintr)
    (E : List Outcome) :
    ∃ lines, readLines maxlen ((pieces (maxlen - 1) (received o)).length + 1) rioReadinitb
        (o ++ .eof :: (i ++ .eof :: E)) = some lines ∧
      lines.map result = (pieces (maxlen - 1) (received o)).map
        (fun p => ((p.length : Int), p)) ++ [(0, [])] ∧
      ∀ line ∈ lines, line.rc = line.bytes.length ∧ (0 < line.rc → ∀ buf, buf.length = maxlen →
        (usrbufAfter buf line).length = maxlen ∧
        (usrbufAfter buf line)[line.bytes.length]? = some 0 ∧
        (usrbufAfter buf line).take line.bytes.length = line.bytes) := by
  obtain ⟨lines, hlines, hresults⟩ := readLines_stream (u := []) hmax hwait E _ hquiet rfl
  refine ⟨lines, hlines, hresults, fun line hline => ?_⟩
  have hresult : result line ∈ lines.map result := List.mem_map_of_mem hline
  rw [hresults, List.mem_append, List.mem_singleton] at hresult
  rcases hresult with hpiece | hend
  · obtain ⟨p, hp, heq⟩ := List.mem_map.mp hpiece
    obtain ⟨hrc, hbytes⟩ := Prod.mk.inj heq
    have hle := pieces_length_le (show 0 < maxlen - 1 by omega) p hp
    have hlen : line.rc = line.bytes.length := by rw [← hrc, hbytes]
    refine ⟨hlen, fun hpos buf hbuf => ?_⟩
    have hroom : line.bytes.length < buf.length := by
      rw [← hbytes, hbuf]
      omega
    rw [← hbuf]
    exact usrbufAfter_terminated hpos hroom
  · obtain ⟨hrc, hbytes⟩ := Prod.mk.inj hend
    refine ⟨by rw [hrc, hbytes]; rfl, fun hpos => ?_⟩
    rw [hrc] at hpos
    exact absurd hpos (Int.lt_irrefl 0)

/-- Four bytes in two pieces, an interruption between them, lines of at most two bytes. -/
theorem lines_of_stream_pieces :
    ∃ lines, readLines 3 4 rioReadinitb
        ([.data 97 [10], .eintr, .data 98 [99, 100]] ++ .eof :: ([.eintr] ++ [.eof])) =
          some lines ∧
      lines.map result = [(2, [97, 10]), (2, [98, 99]), (1, [100]), (0, [])] := by
  have hquiet : Quiet [.data 97 [10], .eintr, .data 98 [99, 100]] := by simp [Quiet]
  obtain ⟨lines, hlines, hresults, -⟩ :=
    lines_of_stream (show 2 ≤ 3 by decide) hquiet (i := [.eintr]) (by simp) []
  exact ⟨lines, hlines, hresults.trans (by decide)⟩

end Runs

end SystemSoftware.LineStream
