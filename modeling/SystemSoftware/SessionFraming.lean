import SystemSoftware.RioLines
import SystemSoftware.PoolRuns
import SystemSoftware.SessionService

/-!
Request framing of the thread-based server. A session passes the lines of its stream
to `parser`, in any pieces they come in, and what is left at the end of the file. A
failed read is not told apart from a line: `parser` is called again over the buffer
as it is, and the session goes on.
-/
namespace SystemSoftware.SessionFraming

open DecimalText RequestParser RioBuffer RioLines SessionService
open StockTree (maxline)
open ConnectionPool (storeLine)
open PoolRuns (lines lines_line)

/-- The byte counts and the buffers that `parser` has been called with, in the
iterations that have ended. -/
def passed (s : Session) : List Event → List (Int × Text)
  | [] => []
  | e :: events =>
    match next s e with
    | none => passed s events
    | some s' => (request s).toList ++ passed s' events

/-- A call of `parser` for these bytes: their number, and a buffer that starts with them
and a terminator. -/
def Matches (call : Int × Text) (t : Text) : Prop := call.1 = t.length ∧ t ++ [0] <+: call.2

/-- What is behind the last newline, if anything. -/
def remainder (t : Text) : List Text :=
  match (t.splitOnP (· == newline)).getLast? with
  | some (c :: r) => [c :: r]
  | _ => []

def segments (t : Text) : List Text := lines t ++ remainder t

/-- Every line, its newline counted, is shorter than MAXLINE, also an unterminated one. -/
def ShortLines (t : Text) : Prop := ∀ l, newline ∉ l.dropLast → l <:+: t → l.length < maxline

/-- No read has failed other than by EINTR, and none has returned bytes behind the end
of the file. -/
def Unbroken (used : List Outcome) : Prop :=
  .error ∉ used ∧ ∀ q rest, used = q ++ .eof :: rest → received rest = []

/-- What has been passed to `parser` when the reads have returned `used`: the first lines,
all of them when the session waits for more, and the remainder too once the stream has
ended (before that only if it fills the buffer and no bytes follow it); a failed read has
ended the session. -/
structure Framed (s : Session) (events : List Event) (used : List Outcome) : Prop where
  order : ∃ texts, List.Forall₂ Matches (passed s events) texts ∧
    (texts <+: lines (received used) ∨ texts = segments (received used) ∧
      (.eof ∈ used ∨ received (service s events).reads = []))
  waiting : .eof ∉ used → (service s events).phase = .running →
    rioReadlineb (service s events).rp maxline (service s events).reads = none →
    ∃ texts, List.Forall₂ Matches (passed s events) texts ∧
      (texts = lines (received s.reads) ∨ texts = segments (received s.reads))
  ended : .eof ∈ used → List.Forall₂ Matches (passed s events) (segments (received used))
  failed : .error ∈ used → (service s events).phase = .returned

/-- `parser` has been called with a negative byte count, or again behind a request that
does not end in a newline. -/
def Misframed (calls : List (Int × Text)) : Prop :=
  (∃ call ∈ calls, call.1 < 0) ∨ ∃ before call after r, calls = before ++ call :: after ∧
    after ≠ [] ∧ newline ∉ r ∧ Matches call r

def IsLine (x : Text) : Prop := ∃ l, newline ∉ l ∧ x = l ++ [newline]

section Texts

variable {l t u : Text} {texts : List Text}

theorem splitOnP_notMem (hl : newline ∉ l) : l.splitOnP (· == newline) = [l] :=
  List.splitOnP_eq_singleton fun _ hc => beq_eq_false_iff_ne.mpr fun heq => hl (heq ▸ hc)

theorem segments_notMem (hl : newline ∉ l) : segments l = if l = [] then [] else [l] := by
  rw [segments, lines, remainder, splitOnP_notMem hl]
  cases l <;> rfl

theorem lines_notMem (hl : newline ∉ l) : lines l = [] := by
  rw [lines, splitOnP_notMem hl]
  rfl

theorem segments_line (hl : newline ∉ l) (u : Text) :
    segments (l ++ newline :: u) = (l ++ [newline]) :: segments u := by
  have hlast : remainder (l ++ newline :: u) = remainder u := by
    rw [remainder, remainder, PoolRuns.splitOnP_line hl, List.getLast?_cons]
    cases hu : (u.splitOnP (· == newline)).getLast? with
    | none => exact absurd (List.getLast?_eq_none_iff.mp hu) (List.splitOnP_ne_nil _ u)
    | some r => rfl
  rw [segments, lines_line hl, hlast, List.cons_append]
  rfl

/-- A cut that takes one line off takes off lines one after the other. -/
theorem cut_flatten {cut : Text → List Text}
    (hcut : ∀ {l}, newline ∉ l → ∀ u, cut (l ++ newline :: u) = (l ++ [newline]) :: cut u)
    (htexts : ∀ x ∈ texts, IsLine x) (t : Text) : cut (texts.flatten ++ t) = texts ++ cut t := by
  induction texts with
  | nil => rfl
  | cons x texts ih =>
    obtain ⟨l, hl, rfl⟩ := htexts x List.mem_cons_self
    rw [List.flatten_cons, List.append_assoc, List.append_assoc, List.singleton_append, hcut hl,
      ih fun y hy => htexts y (List.mem_cons_of_mem _ hy), List.cons_append]

theorem lines_flatten (htexts : ∀ x ∈ texts, IsLine x) (t : Text) :
    lines (texts.flatten ++ t) = texts ++ lines t := cut_flatten lines_line htexts t

theorem segments_flatten (htexts : ∀ x ∈ texts, IsLine x) (t : Text) :
    segments (texts.flatten ++ t) = texts ++ segments t := cut_flatten segments_line htexts t

theorem notMem_of_mem_splitOnP (h : l ∈ t.splitOnP (· == newline)) : newline ∉ l := by
  induction t generalizing l with
  | nil =>
    rw [List.splitOnP_nil, List.mem_singleton] at h
    rw [h]
    exact List.not_mem_nil
  | cons c t ih =>
    rw [List.splitOnP_cons_eq_if_modifyHead] at h
    split at h
    · rcases List.mem_cons.mp h with rfl | h
      · exact List.not_mem_nil
      · exact ih h
    rename_i hc
    cases hsplit : t.splitOnP (· == newline) with
    | nil => exact absurd hsplit (List.splitOnP_ne_nil _ t)
    | cons x xs =>
      rw [hsplit] at h ih
      rcases List.mem_cons.mp h with rfl | h
      · rw [List.mem_cons, not_or]
        exact ⟨fun heq => hc (beq_iff_eq.mpr heq.symm), ih List.mem_cons_self⟩
      · exact ih (List.mem_cons_of_mem _ h)

theorem isLine_of_mem_lines {x : Text} (h : x ∈ lines t) : IsLine x := by
  obtain ⟨l, hl, rfl⟩ := List.mem_map.mp h
  exact ⟨l, notMem_of_mem_splitOnP (List.dropLast_subset _ hl), rfl⟩

/-- A request that is not the last one is a line. -/
theorem isLine_of_segments {x : Text} {before after : List Text}
    (h : before ++ x :: after <+: segments t) (hafter : after ≠ []) : IsLine x := by
  obtain ⟨w, hw⟩ := h
  have hmem : x ∈ (segments t).dropLast := by
    rw [← hw, List.append_assoc, List.cons_append, List.dropLast_append_cons,
      List.dropLast_cons_of_ne_nil (List.append_ne_nil_of_left_ne_nil hafter w)]
    exact List.mem_append_right _ List.mem_cons_self
  refine isLine_of_mem_lines (t := t) ?_
  rw [segments, remainder] at hmem
  split at hmem
  · rw [List.dropLast_concat] at hmem
    exact hmem
  · rw [List.append_nil] at hmem
    exact List.dropLast_subset _ hmem

/-- A call is for one text at most. -/
theorem Matches.unique {call : Int × Text} (h : Matches call t) (h' : Matches call u) : t = u := by
  have hlen : t.length = u.length := by
    have hrc := h.1.symm.trans h'.1
    omega
  have ht := List.prefix_iff_eq_take.mp ((List.prefix_append t [0]).trans h.2)
  have hu := List.prefix_iff_eq_take.mp ((List.prefix_append u [0]).trans h'.2)
  rw [ht, hu, hlen]

theorem matches_storeLine {line : Line} (buf : Text) (hrc : line.rc = line.bytes.length) :
    Matches (line.rc, storeLine buf line) line.bytes := by
  have hpos : ¬ line.rc < 0 := by omega
  refine ⟨hrc, buf.drop (line.bytes.length + 1), ?_⟩
  simp only [storeLine, if_neg hpos, List.append_assoc, List.singleton_append]

end Texts

section Outcomes

variable {used o : List Outcome}

theorem Unbroken.of_quiet (h : Quiet used) : Unbroken used := by
  refine ⟨h.2, fun q rest hsplit => absurd ?_ h.1⟩
  rw [hsplit]
  exact List.mem_append_right _ List.mem_cons_self

theorem Unbroken.of_append (h : Unbroken (used ++ o)) : Unbroken used := by
  refine ⟨fun hmem => h.1 (List.mem_append_left _ hmem), fun q rest hsplit => ?_⟩
  have hrest := h.2 q (rest ++ o) (by rw [hsplit, List.append_assoc, List.cons_append])
  rw [received_append] at hrest
  exact (List.append_eq_nil_iff.mp hrest).1

/-- Outcomes without bytes and failures break nothing. -/
theorem Unbroken.append (h : Unbroken used) (herror : .error ∉ o) (hempty : received o = []) :
    Unbroken (used ++ o) := by
  refine ⟨fun hmem => (List.mem_append.mp hmem).elim h.1 herror, fun q rest hsplit => ?_⟩
  rcases List.append_eq_append_iff.mp hsplit with ⟨a, hq, ho⟩ | ⟨a, hq, ho⟩
  · have hall : received a ++ received (.eof :: rest) = [] := by
      rw [← received_append, ← ho, hempty]
    exact (List.append_eq_nil_iff.mp hall).2
  · cases a with
    | nil =>
      have hall : received (.eof :: rest) = received o := by rw [ho, List.nil_append]
      rw [hempty] at hall
      exact hall
    | cons x a =>
      obtain ⟨rfl, hrest⟩ := List.cons.inj ho
      rw [hrest, List.append_eq, received_append, h.2 q a hq, hempty, List.append_nil]

/-- Bytes behind the end of the file. -/
theorem not_unbroken (heof : .eof ∈ used) (ho : received o ≠ []) : ¬ Unbroken (used ++ o) := by
  obtain ⟨q, rest, hsplit⟩ := List.append_of_mem heof
  intro h
  have hrest := h.2 q (rest ++ o) (by rw [hsplit, List.append_assoc, List.cons_append])
  rw [received_append] at hrest
  exact ho (List.append_eq_nil_iff.mp hrest).2

end Outcomes

section Calls

variable {calls calls' : List (Int × Text)}

theorem Misframed.append (h : Misframed calls) (calls' : List (Int × Text)) :
    Misframed (calls ++ calls') := by
  rcases h with ⟨call, hcall, hneg⟩ | ⟨before, call, after, r, rfl, hafter, hr, hmatch⟩
  · exact Or.inl ⟨call, List.mem_append_left _ hcall, hneg⟩
  · refine Or.inr ⟨before, call, after ++ calls', r, ?_, ?_, hr, hmatch⟩
    · rw [List.append_assoc, List.cons_append]
    · exact List.append_ne_nil_of_left_ne_nil hafter _

theorem forall₂_append_cons {before after : List (Int × Text)} {call : Int × Text}
    {texts : List Text} (h : List.Forall₂ Matches (before ++ call :: after) texts) :
    ∃ first x rest, texts = first ++ x :: rest ∧ Matches call x ∧
      List.Forall₂ Matches after rest := by
  have hdrop := List.forall₂_drop before.length h
  rw [List.drop_left] at hdrop
  obtain ⟨x, rest, hmatch, hrest, hsplit⟩ := List.forall₂_cons_left_iff.mp hdrop
  refine ⟨texts.take before.length, x, rest, ?_, hmatch, hrest⟩
  rw [← hsplit, List.take_append_drop]

/-- A call behind the unterminated one. -/
theorem misframed_snoc {texts : List Text} {r : Text} (call : Int × Text)
    (h : List.Forall₂ Matches calls (texts ++ [r])) (hr : newline ∉ r) :
    Misframed (calls ++ [call]) := by
  have hlast := List.forall₂_drop_append calls texts [r] h
  obtain ⟨c, cs, hmatch, hnil, hdrop⟩ := List.forall₂_cons_right_iff.mp hlast
  rw [List.forall₂_nil_right_iff.mp hnil] at hdrop
  refine Or.inr ⟨calls.take texts.length, c, [call], r, ?_, List.cons_ne_nil _ _, hr, hmatch⟩
  calc calls ++ [call] = calls.take texts.length ++ calls.drop texts.length ++ [call] := by
        rw [List.take_append_drop]
    _ = calls.take texts.length ++ c :: [call] := by
        rw [hdrop, List.append_assoc, List.singleton_append]

/-- Such calls are not those for the first requests of any stream. -/
theorem Misframed.not_segments (h : Misframed calls) {texts : List Text} {t : Text}
    (hcalls : List.Forall₂ Matches calls texts) (htexts : texts <+: segments t) : False := by
  rcases h with ⟨call, hcall, hneg⟩ | ⟨before, call, after, r, rfl, hafter, hr, hmatch⟩
  · obtain ⟨before, after, rfl⟩ := List.append_of_mem hcall
    obtain ⟨first, x, rest, -, hmatch, -⟩ := forall₂_append_cons hcalls
    have hrc := hmatch.1
    omega
  · obtain ⟨first, x, rest, rfl, hmatch', hrest⟩ := forall₂_append_cons hcalls
    have hne : rest ≠ [] := by
      rintro rfl
      exact hafter (List.forall₂_nil_right_iff.mp hrest)
    obtain ⟨l, -, hline⟩ := isLine_of_segments htexts hne
    rw [hmatch.unique hmatch', hline] at hr
    exact hr (List.mem_append_right _ (List.mem_singleton_self _))

end Calls

/-- The session so far: it has passed on whole lines; or the stream has ended, or has no
more bytes, and what was left has been passed on too; or the framing is lost. -/
inductive Trace (calls : List (Int × Text)) (used : List Outcome) (t : Session) : Prop
  | clean (texts : List Text) (hlines : ∀ x ∈ texts, IsLine x)
      (hcalls : List.Forall₂ Matches calls texts) (hquiet : Quiet used)
      (htaken : received used = texts.flatten ++ t.rp.unread)
  | ended (texts : List Text) (rest : Text) (hlines : ∀ x ∈ texts, IsLine x)
      (hrest : newline ∉ rest) (hcalls : List.Forall₂ Matches calls (texts ++ segments rest))
      (hused : Unbroken used) (hend : .eof ∈ used ∨ received t.reads = [])
      (htaken : received used = texts.flatten ++ rest) (hunread : t.rp.unread = [])
      (hover : t.phase = .running → rest ≠ [])
  | broken (hused : ¬ Unbroken used) (hcalls : Misframed calls)

/-- One iteration: it has used up `taken` for one line, and either returns or has passed
the line on. -/
structure Iteration (t t' : Session) (taken : List Outcome) (line : Line) : Prop where
  running : t.phase = .running
  ends : Ends [] t.rp.unread taken line
  took : t.reads = taken ++ line.outcomes
  rp : t'.rp = line.rio
  reads : t'.reads = line.outcomes
  returns : line.rc = 0 → t'.phase = .returned
  passes : request t = if line.rc = 0 then none else some (line.rc, storeLine t.buf line)

section Steps

variable {s s' t t' : Session} {e : Event} {calls : List (Int × Text)} {used taken : List Outcome}
  {line : Line} {texts : List Text} {rest : Text}

/-- An iteration that ends reads one line; it goes on to `parser` or returns. -/
theorem next_spec (hrun : s.phase = .running) (hopen : s.isOpen = true)
    (h : next s e = some s') : ∃ line, rioReadlineb s.rp maxline s.reads = some line ∧
      s'.rp = line.rio ∧ s'.reads = line.outcomes ∧ (line.rc = 0 → s'.phase = .returned) ∧
      request s = if line.rc = 0 then none else some (line.rc, storeLine s.buf line) := by
  rw [next_eq hrun hopen] at h
  obtain ⟨line, hline, h⟩ := Option.bind_eq_some_iff.mp h
  refine ⟨line, hline, ?_⟩
  have hrequest : request s = if line.rc = 0 then none
      else some (line.rc, storeLine s.buf line) := by
    simp only [request, hline, Option.bind_eq_bind, Option.bind_some]
  dsimp only at h
  split at h
  · rename_i hrc
    obtain ⟨hrp, hreads⟩ := Prod.mk.inj (answer_reads h)
    exact ⟨hrp, hreads, fun heq => absurd heq hrc, hrequest⟩
  · rw [← Option.some.inj h]
    exact ⟨rfl, rfl, fun _ => rfl, hrequest⟩

namespace Iteration

theorem stops (h : Iteration t t' taken line) (hzero : line.rc = 0) : t'.phase ≠ .running := by
  rw [h.returns hzero]
  exact Phase.noConfusion

theorem passes_toList (h : Iteration t t' taken line) (hrc : line.rc ≠ 0) :
    (request t).toList = [(line.rc, storeLine t.buf line)] := by
  rw [h.passes, if_neg hrc]
  rfl

/-- After a failed read the buffer is passed on with -1 as its length. -/
theorem misframed (h : Iteration t t' taken line) (hrc : line.rc = -1) :
    Misframed (calls ++ (request t).toList) := by
  rw [h.passes_toList (by omega)]
  refine Or.inl ⟨(line.rc, storeLine t.buf line), ?_, by omega⟩
  exact List.mem_append_right _ (List.mem_singleton_self _)

/-- What is passed on at the end of the stream. -/
theorem passes_rest (h : Iteration t t' taken line) (hrc : line.rc = rest.length)
    (hbytes : line.bytes = rest) (hrest : newline ∉ rest) :
    List.Forall₂ Matches (request t).toList (segments rest) := by
  rw [segments_notMem hrest]
  by_cases hempty : rest = []
  · have hzero : line.rc = 0 := by rw [hrc, hempty, List.length_nil, Int.natCast_zero]
    rw [h.passes, if_pos hzero, if_pos hempty]
    exact .nil
  · have hpos := List.length_pos_iff.mpr hempty
    rw [h.passes_toList (by omega), if_neg hempty, ← hbytes]
    exact .cons (matches_storeLine t.buf (by rw [hrc, hbytes])) .nil

/-- From whole lines to one more line, to the end of the stream or to a failed read. -/
theorem trace_clean (h : Iteration t t' taken line) (hlines : ∀ x ∈ texts, IsLine x)
    (hcalls : List.Forall₂ Matches calls texts) (hquiet : Quiet used)
    (htaken : received used = texts.flatten ++ t.rp.unread) :
    Trace (calls ++ (request t).toList) (used ++ taken) t' := by
  cases h.ends with
  | line l hl hq hrest hrc hbytes =>
    rw [List.nil_append] at hrc hbytes
    have hlength : line.rc = line.bytes.length := by
      rw [hrc, hbytes, List.length_append, List.length_singleton, Nat.cast_add, Nat.cast_one]
    have hcall : List.Forall₂ Matches (request t).toList [l ++ [newline]] := by
      rw [h.passes_toList (by omega), ← hbytes]
      exact .cons (matches_storeLine t.buf hlength) .nil
    refine .clean (texts ++ [l ++ [newline]]) ?_ (List.rel_append hcalls hcall)
      (quiet_append.mpr ⟨hquiet, hq⟩) ?_
    · intro x hx
      rcases List.mem_append.mp hx with hx | hx
      · exact hlines x hx
      · exact ⟨l, hl, List.mem_singleton.mp hx⟩
    · rw [received_append, htaken, h.rp, List.append_assoc, hrest, List.flatten_append,
        List.flatten_singleton, List.append_assoc, List.append_assoc, List.singleton_append]
  | eof q htaken' hq hl hunread hrc hbytes =>
    rw [List.nil_append] at hrc hbytes
    refine .ended texts (t.rp.unread ++ received q) hlines hl
      (List.rel_append hcalls (h.passes_rest hrc hbytes hl)) ?_ ?_ ?_ ?_ ?_
    · rw [htaken', ← List.append_assoc]
      refine (Unbroken.of_quiet (quiet_append.mpr ⟨hquiet, hq⟩)).append ?_ rfl
      simp
    · rw [htaken']
      simp
    · rw [htaken', received_append, received_append, htaken, List.append_assoc]
      exact congrArg _ (congrArg _ (List.append_nil _))
    · rw [h.rp, hunread]
    · intro hgoes hempty
      refine h.stops ?_ hgoes
      rw [hrc, hempty, List.length_nil, Int.natCast_zero]
  | full hq hl hunread hnone hpos hrc hbytes =>
    rw [List.nil_append] at hrc hbytes
    refine .ended texts (t.rp.unread ++ received taken) hlines hl
      (List.rel_append hcalls (h.passes_rest hrc hbytes hl))
      (.of_quiet (quiet_append.mpr ⟨hquiet, hq⟩)) (Or.inr (by rw [h.reads, hnone])) ?_
      (by rw [h.rp, hunread]) ?_
    · rw [received_append, htaken, List.append_assoc]
    · intro _ hempty
      rw [hempty, List.length_nil, Int.natCast_zero] at hrc
      exact hpos hrc
  | error q htaken' hq hunread hrc =>
    refine .broken (fun hused => hused.1 ?_) (h.misframed hrc)
    rw [htaken']
    simp

/-- Behind the end of the stream the session returns at the next end of the file, and
everything else breaks the framing. -/
theorem trace_ended (h : Iteration t t' taken line) (hlines : ∀ x ∈ texts, IsLine x)
    (hrest : newline ∉ rest) (hcalls : List.Forall₂ Matches calls (texts ++ segments rest))
    (hused : Unbroken used) (hend : .eof ∈ used ∨ received t.reads = [])
    (htaken : received used = texts.flatten ++ rest) (hunread : t.rp.unread = [])
    (hne : rest ≠ []) :
    Trace (calls ++ (request t).toList) (used ++ taken) t' := by
  have hlast : line.rc ≠ 0 → Misframed (calls ++ (request t).toList) := by
    intro hrc
    rw [segments_notMem hrest, if_neg hne] at hcalls
    rw [h.passes_toList hrc]
    exact misframed_snoc _ hcalls hrest
  have hbehind : received taken ≠ [] → ¬ Unbroken (used ++ taken) := by
    intro hmore
    refine not_unbroken (hend.resolve_right fun hnone => hmore ?_) hmore
    rw [h.took, received_append] at hnone
    exact (List.append_eq_nil_iff.mp hnone).1
  cases h.ends with
  | line l hl hq hread hrc hbytes =>
    refine .broken (hbehind fun hempty => ?_) (hlast (by omega))
    rw [hunread, hempty] at hread
    simp at hread
  | eof q htaken' hq hl hunread' hrc hbytes =>
    have hsame : received taken = received q := by
      rw [htaken', received_append]
      exact List.append_nil _
    rw [hunread, List.nil_append, List.nil_append, ← hsame] at hrc
    by_cases hempty : received taken = []
    · have hzero : line.rc = 0 := by rw [hrc, hempty, List.length_nil, Int.natCast_zero]
      rw [h.passes, if_pos hzero, Option.toList_none, List.append_nil]
      refine .ended texts rest hlines hrest hcalls (hused.append ?_ hempty) (Or.inl ?_) ?_
        (by rw [h.rp, hunread']) fun hgoes => absurd hgoes (h.stops hzero)
      · rw [htaken']
        simp [hq.2]
      · rw [htaken']
        simp
      · rw [received_append, htaken, hempty, List.append_nil]
    · have hpos := List.length_pos_iff.mpr hempty
      exact .broken (hbehind hempty) (hlast (by omega))
  | full hq hl hunread' hnone hpos hrc hbytes =>
    rw [hunread, List.nil_append, List.nil_append] at hrc
    refine .broken (hbehind fun hempty => hpos ?_) (hlast hpos)
    rw [hrc, hempty, List.length_nil, Int.natCast_zero]
  | error q htaken' hq hunread' hrc =>
    refine .broken (fun hused => hused.1 ?_) (h.misframed hrc)
    rw [htaken']
    simp

end Iteration

/-- What one iteration makes of the trace. -/
theorem Trace.step (htrace : Trace calls used t) (h : Iteration t t' taken line) :
    Trace (calls ++ (request t).toList) (used ++ taken) t' := by
  cases htrace with
  | clean texts hlines hcalls hquiet htaken => exact h.trace_clean hlines hcalls hquiet htaken
  | ended texts rest hlines hrest hcalls hused hend htaken hunread hover =>
    exact h.trace_ended hlines hrest hcalls hused hend htaken hunread (hover h.running)
  | broken hused hcalls =>
    exact .broken (fun hall => hused hall.of_append) (hcalls.append _)

end Steps

section Runs

variable {s : Session} {events : List Event} {calls : List (Int × Text)} {used : List Outcome}

theorem passed_append (s : Session) (events : List Event) (e : Event) :
    passed s (events ++ [e]) = passed s events ++
      if (next (service s events) e).isSome then (request (service s events)).toList else [] := by
  induction events generalizing s with
  | nil =>
    rw [List.nil_append, passed, passed, List.nil_append]
    change _ = if (next s e).isSome then (request s).toList else []
    cases next s e with
    | none => rfl
    | some s' => exact List.append_nil _
  | cons a events ih =>
    rw [List.cons_append, passed, passed]
    change _ = _ ++ if (next (service ((next s a).getD s) events) e).isSome
      then (request (service ((next s a).getD s) events)).toList else []
    cases next s a with
    | none => exact ih s
    | some s' => exact (congrArg _ (ih s')).trans (List.append_assoc _ _ _).symm

/-- What a session has read, what is left to it and what it has passed on. -/
theorem service_trace (hs : Started s) (hshort : ShortLines (received s.reads))
    (events : List Event) : ∃ used, s.reads = used ++ (service s events).reads ∧
      (service s events).rp.unread ++ received (service s events).reads <:+ received s.reads ∧
      Trace (passed s events) used (service s events) := by
  induction events using List.reverseRecOn with
  | nil =>
    have hunread : s.rp.unread = [] := by
      rw [hs.2.2.1]
      rfl
    refine ⟨[], rfl, ?_, .clean [] (fun x hx => by cases hx) .nil (by simp [Quiet]) hunread.symm⟩
    change s.rp.unread ++ received s.reads <:+ received s.reads
    rw [hunread]
    exact List.suffix_rfl
  | append_singleton events e ih =>
    obtain ⟨used, hused, hsuffix, htrace⟩ := ih
    rw [passed_append, service_append]
    cases hnext : next (service s events) e with
    | none =>
      refine ⟨used, hused, hsuffix, ?_⟩
      simpa using htrace
    | some s' =>
      have hrun := running_of_next hnext
      obtain ⟨line, hline, hrp, hreads, hover, hrequest⟩ :=
        next_spec hrun (service_isOpen hs events hrun) hnext
      obtain ⟨taken, htaken, hends⟩ := rioReadlineb_ends (by decide)
        (fun l hl hfirst => hshort l hl (hfirst.isInfix.trans hsuffix.isInfix)) hline
      refine ⟨used ++ taken, ?_, ?_,
        htrace.step ⟨hrun, hends, htaken, hrp, hreads, hover, hrequest⟩⟩
      · rw [hused, htaken, List.append_assoc, Option.getD_some, hreads]
      · rw [Option.getD_some, hrp, hreads]
        refine (hends.suffix line.outcomes).trans ?_
        rw [← htaken]
        exact hsuffix

/-- A session that has lost the framing has passed on what was no request. -/
theorem Trace.misframed {t : Session} (h : Trace calls used t) (hbroken : ¬ Unbroken used) :
    Misframed calls := by
  cases h with
  | clean texts hlines hcalls hquiet htaken => exact absurd (.of_quiet hquiet) hbroken
  | ended texts rest hlines hrest hcalls hused hend htaken hunread hover =>
    exact absurd hused hbroken
  | broken hused hcalls => exact hcalls

/-- The requests of a session are those of its stream as long as no read fails and no
bytes follow the end of the file, and no longer. -/
theorem framed_iff_unbroken (hs : Started s) (hshort : ShortLines (received s.reads))
    (hused : s.reads = used ++ (service s events).reads) :
    Framed s events used ↔ Unbroken used := by
  obtain ⟨used', hused', -, htrace⟩ := service_trace hs hshort events
  obtain rfl : used' = used := List.append_cancel_right (hused'.symm.trans hused)
  constructor
  · intro h
    by_contra hbroken
    obtain ⟨texts, hcalls, htexts⟩ := h.order
    refine (htrace.misframed hbroken).not_segments hcalls (t := received used') ?_
    rcases htexts with hfirst | ⟨rfl, -⟩
    · exact hfirst.trans (List.prefix_append _ _)
    · exact List.prefix_rfl
  · intro h
    cases htrace with
    | clean texts hlines hcalls hquiet htaken =>
      refine ⟨⟨texts, hcalls, Or.inl ?_⟩, fun _ _ hwaits => ⟨texts, hcalls, Or.inl ?_⟩,
        fun heof => absurd heof hquiet.1, fun herror => absurd herror h.1⟩
      · rw [htaken, lines_flatten hlines]
        exact List.prefix_append _ _
      · obtain ⟨-, hrest⟩ := rioReadlineb_waits hwaits
        rw [hused, received_append, htaken, List.append_assoc, lines_flatten hlines,
          lines_notMem hrest, List.append_nil]
    | ended texts rest hlines hrest hcalls hunbroken hend htaken hunread hover =>
      rw [← segments_flatten hlines, ← htaken] at hcalls
      refine ⟨⟨_, hcalls, Or.inr ⟨rfl, hend⟩⟩, fun heof _ _ => ⟨_, hcalls, Or.inr ?_⟩,
        fun _ => hcalls, fun herror => absurd herror h.1⟩
      rw [hused, received_append, hend.resolve_left heof, List.append_nil]
    | broken hbroken hcalls => exact absurd h hbroken

end Runs

theorem shortLines_of_length {t : Text} (h : t.length < maxline) : ShortLines t := by
  intro l _ hl
  have hle := hl.length_le
  omega

theorem framed_show : Framed showing [willing, willing] showing.reads := by
  have hleft : (service showing [willing, willing]).reads.length = 0 := by decide
  have hused : showing.reads = showing.reads ++ (service showing [willing, willing]).reads := by
    rw [List.eq_nil_of_length_eq_zero hleft, List.append_nil]
  have hquiet : Quiet [.data 115 (ascii "how\n")] := by simp [Quiet]
  have hunbroken : Unbroken ([.data 115 (ascii "how\n")] ++ [.eof]) :=
    (Unbroken.of_quiet hquiet).append (by simp) rfl
  exact (framed_iff_unbroken (accepted_started _) (shortLines_of_length (by decide))
    hused).mpr hunbroken

def dropped : Session := accepted [.data 115 (ascii "how\n"), .error]

/-- The line is executed again, with -1 as its length, and the session goes on. -/
theorem framed_dropped : ∃ s events used, Started s ∧ ShortLines (received s.reads) ∧
    s.reads = used ++ (service s events).reads ∧
    (passed s events).map Prod.fst = [5, -1] ∧ (service s events).sent.length = 2 ∧
    (service s events).phase = .running ∧ ¬ Framed s events used := by
  have hphase : (service dropped [willing, willing]).phase = .running := by decide
  have hreads : (service dropped [willing, willing]).reads.length = 0 := by decide
  refine ⟨dropped, [willing, willing], dropped.reads, accepted_started _,
    shortLines_of_length (by decide), ?_, by decide, by decide, hphase, ?_⟩
  · rw [List.eq_nil_of_length_eq_zero hreads, List.append_nil]
  · intro h
    have hover := h.failed (List.mem_cons_of_mem _ (List.mem_singleton_self _))
    rw [hphase] at hover
    cases hover

end SystemSoftware.SessionFraming
