import SystemSoftware.RioBuffer
import Mathlib.Data.List.Infix

/-!
What one call of rio_readlineb takes from the outcomes of `read`. It ends at a
newline, at the end of the file or at a failure, whatever pieces the bytes come in,
as long as the lines fit into the buffer.
-/
namespace SystemSoftware.RioLines

open DecimalText RioBuffer

def received (outcomes : List Outcome) : Text :=
  outcomes.flatMap fun o =>
    match o with
    | .data c r => c :: r
    | _ => []

def Quiet (outcomes : List Outcome) : Prop := .eof ∉ outcomes ∧ .error ∉ outcomes

/-- How a call has ended that found `stored` in the buffer and `u` in the reader, and
has used up the outcomes `used`. The buffer may be full when there are no more bytes. -/
inductive Ends (stored u : Text) (used : List Outcome) (line : Line) : Prop
  | line (l : Text) (hl : newline ∉ l) (hquiet : Quiet used)
      (htaken : u ++ received used = l ++ newline :: line.rio.unread)
      (hrc : line.rc = (stored ++ l).length + 1) (hbytes : line.bytes = stored ++ (l ++ [newline]))
  | eof (q : List Outcome) (hused : used = q ++ [.eof]) (hquiet : Quiet q)
      (hl : newline ∉ u ++ received q) (hunread : line.rio.unread = [])
      (hrc : line.rc = (stored ++ (u ++ received q)).length)
      (hbytes : line.bytes = stored ++ (u ++ received q))
  | full (hquiet : Quiet used) (hl : newline ∉ u ++ received used)
      (hunread : line.rio.unread = []) (hnone : received line.outcomes = []) (hpos : line.rc ≠ 0)
      (hrc : line.rc = (stored ++ (u ++ received used)).length)
      (hbytes : line.bytes = stored ++ (u ++ received used))
  | error (q : List Outcome) (hused : used = q ++ [.error]) (hquiet : Quiet q)
      (hunread : line.rio.unread = []) (hrc : line.rc = -1)

section Reads

variable {u : Text} {o o' : List Outcome}

theorem received_append (o o' : List Outcome) : received (o ++ o') = received o ++ received o' :=
  List.flatMap_append

theorem quiet_append : Quiet (o ++ o') ↔ Quiet o ∧ Quiet o' := by
  simp only [Quiet, List.mem_append, not_or]
  tauto

theorem Quiet.data {c : UInt8} {r : Text} (h : Quiet o) : Quiet (o ++ [.data c r]) := by
  refine quiet_append.mpr ⟨h, ?_, ?_⟩ <;> simp

theorem quiet_eintr : Quiet (.eintr :: o) ↔ Quiet o := by
  simp [Quiet]

/-- A `read` loop that waits has seen nothing but EINTR. -/
theorem rioFill_none (h : rioFill o = none) : Quiet o ∧ received o = [] := by
  induction o with
  | nil => exact ⟨by simp [Quiet], rfl⟩
  | cons x o ih =>
    cases x with
    | eintr => exact ⟨quiet_eintr.mpr (ih h).1, (ih h).2⟩
    | _ => cases h

theorem rioFill_some {cnt : Int} {text : Text} (h : rioFill o = some (cnt, text, o')) :
    ∃ q, Quiet q ∧ received q = [] ∧ ((cnt = -1 ∧ text = [] ∧ o = q ++ .error :: o') ∨
      (cnt = 0 ∧ text = [] ∧ o = q ++ .eof :: o') ∨
      ∃ c r, cnt = (r.length : Int) + 1 ∧ text = c :: r ∧ o = q ++ .data c r :: o') := by
  induction o with
  | nil => cases h
  | cons x o ih =>
    have hnone : Quiet [] ∧ received [] = [] := ⟨by simp [Quiet], rfl⟩
    cases x with
    | eintr =>
      obtain ⟨q, hq, hempty, hcases⟩ := ih h
      refine ⟨.eintr :: q, quiet_eintr.mpr hq, hempty, ?_⟩
      rcases hcases with ⟨hcnt, htext, rfl⟩ | ⟨hcnt, htext, rfl⟩ | ⟨c, r, hcnt, htext, rfl⟩
      · exact Or.inl ⟨hcnt, htext, rfl⟩
      · exact Or.inr (Or.inl ⟨hcnt, htext, rfl⟩)
      · exact Or.inr (Or.inr ⟨c, r, hcnt, htext, rfl⟩)
    | error =>
      simp only [rioFill, Option.some.injEq, Prod.mk.injEq] at h
      obtain ⟨rfl, rfl, rfl⟩ := h
      exact ⟨[], hnone.1, hnone.2, Or.inl ⟨rfl, rfl, rfl⟩⟩
    | eof =>
      simp only [rioFill, Option.some.injEq, Prod.mk.injEq] at h
      obtain ⟨rfl, rfl, rfl⟩ := h
      exact ⟨[], hnone.1, hnone.2, Or.inr (Or.inl ⟨rfl, rfl, rfl⟩)⟩
    | data c r =>
      simp only [rioFill, Option.some.injEq, Prod.mk.injEq] at h
      obtain ⟨rfl, rfl, rfl⟩ := h
      exact ⟨[], hnone.1, hnone.2, Or.inr (Or.inr ⟨c, r, rfl, rfl, rfl⟩)⟩

/-- Reading one byte: from the reader or from the next outcome with bytes, or the end of
the file or a failure comes first. -/
inductive ByteRead (u : Text) (o : List Outcome) : Option (Int × Text × Rio × List Outcome) → Prop
  | byte (q : List Outcome) (c : UInt8) (u' : Text) (rest : List Outcome) (ho : o = q ++ rest)
      (hquiet : Quiet q) (htaken : u ++ received q = c :: u') :
      ByteRead u o (some (1, [c], ⟨u'⟩, rest))
  | eof (q rest : List Outcome) (ho : o = q ++ [.eof] ++ rest) (hquiet : Quiet q)
      (hnone : u ++ received q = []) : ByteRead u o (some (0, [], ⟨[]⟩, rest))
  | error (q rest : List Outcome) (ho : o = q ++ [.error] ++ rest) (hquiet : Quiet q) :
      ByteRead u o (some (-1, [], ⟨[]⟩, rest))
  | waits (hquiet : Quiet o) (hnone : u ++ received o = []) : ByteRead u o none

theorem rioRead_byte (u : Text) (o : List Outcome) : ByteRead u o (rioRead ⟨u⟩ 1 o) := by
  cases u with
  | cons c u =>
    rw [rioRead_unread]
    exact .byte [] c u o rfl (by simp [Quiet]) (List.append_nil _)
  | nil =>
    cases hfill : rioFill o with
    | none =>
      obtain ⟨hquiet, hnone⟩ := rioFill_none hfill
      have hread : rioRead ⟨[]⟩ 1 o = none := by simp [rioRead, hfill]
      rw [hread]
      exact .waits hquiet hnone
    | some x =>
      obtain ⟨cnt, text, rest⟩ := x
      obtain ⟨q, hq, hempty, hcases⟩ := rioFill_some hfill
      rcases hcases with ⟨rfl, rfl, rfl⟩ | ⟨rfl, rfl, rfl⟩ | ⟨c, r, rfl, rfl, rfl⟩
      · have hread : rioRead ⟨[]⟩ 1 (q ++ .error :: rest) = some (-1, [], ⟨[]⟩, rest) := by
          simp [rioRead, hfill]
        rw [hread]
        exact .error q rest (by simp) hq
      · have hread : rioRead ⟨[]⟩ 1 (q ++ .eof :: rest) = some (0, [], ⟨[]⟩, rest) := by
          simp [rioRead, hfill]
        rw [hread]
        exact .eof q rest (by simp) hq hempty
      · have hcnt : ¬ (r.length : Int) + 1 ≤ 0 := by omega
        have hread : rioRead ⟨[]⟩ 1 (q ++ .data c r :: rest) = some (1, [c], ⟨r⟩, rest) := by
          simp [rioRead, hfill, hcnt]
        rw [hread]
        refine .byte (q ++ [.data c r]) c r rest (by simp) hq.data ?_
        rw [received_append, hempty]
        exact List.append_nil _

theorem newline_notMem_cons {c : UInt8} {l : Text} (hc : [c] ≠ [newline]) (hl : newline ∉ l) :
    newline ∉ c :: l := by
  rw [List.mem_cons, not_or]
  exact ⟨fun heq => hc (by rw [heq]), hl⟩

/-- A byte that is stored belongs to what the rest of the call takes. -/
theorem Ends.cons {stored u' : Text} {c : UInt8} {q used : List Outcome} {line : Line}
    (hc : [c] ≠ [newline]) (hquiet : Quiet q) (htaken : u ++ received q = c :: u')
    (h : Ends (stored ++ [c]) u' used line) : Ends stored u (q ++ used) line := by
  have hshift : ∀ o, u ++ received (q ++ o) = c :: (u' ++ received o) := by
    intro o
    rw [received_append, ← List.append_assoc, htaken, List.cons_append]
  cases h with
  | line l hl hq hrest hrc hbytes =>
    refine .line (c :: l) (newline_notMem_cons hc hl) (quiet_append.mpr ⟨hquiet, hq⟩) ?_ ?_ ?_
    · rw [hshift, hrest, List.cons_append]
    · rw [hrc, List.append_assoc, List.singleton_append]
    · rw [hbytes, List.append_assoc, List.singleton_append, List.cons_append]
  | eof q' hused hq hl hunread hrc hbytes =>
    refine .eof (q ++ q') (by rw [hused, List.append_assoc]) (quiet_append.mpr ⟨hquiet, hq⟩) ?_
      hunread ?_ ?_
    · rw [hshift]
      exact newline_notMem_cons hc hl
    · rw [hrc, hshift, List.append_assoc, List.singleton_append]
    · rw [hbytes, hshift, List.append_assoc, List.singleton_append]
  | full hq hl hunread hnone hpos hrc hbytes =>
    refine .full (quiet_append.mpr ⟨hquiet, hq⟩) ?_ hunread hnone hpos ?_ ?_
    · rw [hshift]
      exact newline_notMem_cons hc hl
    · rw [hrc, hshift, List.append_assoc, List.singleton_append]
    · rw [hbytes, hshift, List.append_assoc, List.singleton_append]
  | error q' hused hq hunread hrc =>
    exact .error (q ++ q') (by rw [hused, List.append_assoc]) (quiet_append.mpr ⟨hquiet, hq⟩)
      hunread hrc

/-- What is left to be read is the end of what was to be read. -/
theorem Ends.suffix {stored : Text} {used : List Outcome} {line : Line}
    (h : Ends stored u used line) (o : List Outcome) :
    line.rio.unread ++ received o <:+ u ++ received (used ++ o) := by
  rw [received_append, ← List.append_assoc]
  cases h with
  | line l hl hquiet htaken hrc hbytes =>
    refine ⟨l ++ [newline], ?_⟩
    rw [htaken, List.append_assoc, List.append_assoc, List.singleton_append, List.cons_append]
  | eof q hused hquiet hl hunread hrc hbytes =>
    rw [hunread]
    exact List.suffix_append _ _
  | full hquiet hl hunread hnone hpos hrc hbytes =>
    rw [hunread]
    exact List.suffix_append _ _
  | error q hused hquiet hunread hrc =>
    rw [hunread]
    exact List.suffix_append _ _

theorem readlineLoop_ends {line : Line} (left : ℕ) : ∀ (stored u : Text) (o : List Outcome),
    (∀ l, newline ∉ l.dropLast → l <+: u ++ received o → l.length ≤ left) →
    0 < stored.length + left → readlineLoop left (stored.length + 1) stored ⟨u⟩ o = some line →
    ∃ used, o = used ++ line.outcomes ∧ Ends stored u used line := by
  induction left with
  | zero =>
    intro stored u o hshort hroom h
    have hnone : u ++ received o = [] := by
      rcases hall : u ++ received o with _ | ⟨c, t⟩
      · rfl
      · have hle := hshort [c] List.not_mem_nil (by
          rw [hall]
          exact List.prefix_append [c] t)
        exact absurd hle (Nat.not_succ_le_zero 0)
    obtain ⟨rfl, hrest⟩ := List.append_eq_nil_iff.mp hnone
    obtain rfl := Option.some.inj h
    have hrc : ((stored.length + 1 : ℕ) : Int) - 1 = stored.length := by omega
    refine ⟨[], rfl, .full ⟨List.not_mem_nil, List.not_mem_nil⟩ List.not_mem_nil rfl hrest ?_ ?_ ?_⟩
    · change ((stored.length + 1 : ℕ) : Int) - 1 ≠ 0
      omega
    · exact hrc.trans (by simp [received])
    · simp [received]
  | succ left ih =>
    intro stored u o hshort hroom h
    rw [readlineLoop] at h
    have hread := rioRead_byte u o
    generalize rioRead ⟨u⟩ 1 o = result at h hread
    cases hread with
    | byte q c u' rest ho hquiet htaken =>
      subst ho
      simp only [Option.bind_eq_bind, Option.bind_some, if_true] at h
      split at h
      · rename_i hc
        obtain rfl : c = newline := List.singleton_inj.mp hc
        obtain rfl := Option.some.inj h
        refine ⟨q, rfl, .line [] List.not_mem_nil hquiet htaken ?_ rfl⟩
        simp
      · rename_i hc
        have hlen : stored.length + 1 + 1 = (stored ++ [c]).length + 1 := by simp
        rw [hlen] at h
        have hshort' : ∀ l, newline ∉ l.dropLast → l <+: u' ++ received rest →
            l.length ≤ left := by
          intro l hl hfirst
          have hcons : c :: l <+: u ++ received (q ++ rest) := by
            rw [received_append, ← List.append_assoc, htaken, List.cons_append]
            exact (List.prefix_cons_inj c).mpr hfirst
          refine Nat.le_of_succ_le_succ (hshort (c :: l) ?_ hcons)
          cases l with
          | nil => exact List.not_mem_nil
          | cons d l => exact newline_notMem_cons hc hl
        have hroom' : 0 < (stored ++ [c]).length + left := by
          rw [List.length_append, List.length_singleton]
          omega
        obtain ⟨used, hrest, hends⟩ := ih (stored ++ [c]) u' rest hshort' hroom' h
        exact ⟨q ++ used, by rw [hrest, List.append_assoc], hends.cons hc hquiet htaken⟩
    | eof q rest ho hquiet hnone =>
      have hempty : line = ⟨(stored.length : Int), stored, ⟨[]⟩, rest⟩ := by
        cases stored with
        | nil => exact (Option.some.inj h).symm
        | cons c stored =>
          simp at h
          simp [← h]
      subst hempty
      refine ⟨q ++ [.eof], ho, .eof q rfl hquiet ?_ rfl ?_ ?_⟩
      · rw [hnone]
        exact List.not_mem_nil
      · rw [hnone, List.append_nil]
      · rw [hnone, List.append_nil]
    | error q rest ho hquiet =>
      obtain rfl := Option.some.inj h
      exact ⟨q ++ [.error], ho, .error q rfl hquiet rfl rfl⟩
    | waits => cases h

/-- A call that waits has seen no end and no newline. -/
theorem readlineLoop_waits (left : ℕ) : ∀ (n : ℕ) (stored u : Text) (o : List Outcome),
    readlineLoop left n stored ⟨u⟩ o = none → Quiet o ∧ newline ∉ u ++ received o := by
  induction left with
  | zero =>
    intro n stored u o h
    cases h
  | succ left ih =>
    intro n stored u o h
    rw [readlineLoop] at h
    have hread := rioRead_byte u o
    generalize rioRead ⟨u⟩ 1 o = result at h hread
    cases hread with
    | byte q c u' rest ho hquiet htaken =>
      subst ho
      simp only [Option.bind_eq_bind, Option.bind_some, if_true] at h
      split at h
      · cases h
      · rename_i hc
        obtain ⟨hrest, hl⟩ := ih _ _ u' rest h
        refine ⟨quiet_append.mpr ⟨hquiet, hrest⟩, ?_⟩
        rw [received_append, ← List.append_assoc, htaken, List.cons_append]
        exact newline_notMem_cons hc hl
    | eof q rest ho hquiet hnone =>
      simp at h
      split at h <;> cases h
    | error q rest ho hquiet => cases h
    | waits hquiet hnone =>
      rw [hnone]
      exact ⟨hquiet, List.not_mem_nil⟩

end Reads

section Calls

variable {u : Text} {maxlen : ℕ} {o : List Outcome}

/-- A call over lines that fit into the buffer takes one line, or what is left at the
end of the file, or fails. -/
theorem rioReadlineb_ends {line : Line} (hmax : 2 ≤ maxlen)
    (hshort : ∀ l, newline ∉ l.dropLast → l <+: u ++ received o → l.length < maxlen)
    (h : rioReadlineb ⟨u⟩ maxlen o = some line) :
    ∃ used, o = used ++ line.outcomes ∧ Ends [] u used line := by
  refine readlineLoop_ends (maxlen - 1) [] u o (fun l hl hfirst => ?_) ?_ h
  · exact Nat.le_sub_one_of_lt (hshort l hl hfirst)
  · rw [List.length_nil]
    omega

theorem rioReadlineb_waits (h : rioReadlineb ⟨u⟩ maxlen o = none) :
    Quiet o ∧ newline ∉ u ++ received o := readlineLoop_waits _ _ _ u o h

end Calls

end SystemSoftware.RioLines
