import SystemSoftware.RequestTokens

/-!
What a request depends on. A scanning loop that ends inside a text ends there
whatever stands behind the text, and all loops but one end at the newline. The loop
over the first argument of a trade ends at a blank alone, and takes what an earlier
request has left behind the line for a part of this one.
-/
namespace SystemSoftware.RequestIndependence

open DecimalText StockTree RequestParser RequestTokens

/-- The line from the first argument on. -/
def argStart (line : Text) : Text := (behind line).dropWhile blank

def Overruns (line : Text) (rc : Int) : Prop :=
  rc ≠ 1 ∧ (∃ c, selected (firstToken line) = some c ∧ c.1 = .intint) ∧
    ∀ x ∈ argStart line, blank x = false

section Extend

variable {u v w rest : Text} {stop : UInt8 → Bool} {cmd : Command}

theorem skipBlanks_extend (h : skipBlanks u = some rest) (v : Text) :
    skipBlanks (u ++ v) = some (rest ++ v) := by
  obtain ⟨b, d, t, rfl, rfl, hb, hd⟩ := skipBlanks_iff.mp h
  rw [List.append_assoc]
  exact skipBlanks_append hb hd

theorem spanTo_extend (h : spanTo stop u = some (w, rest)) (v : Text) :
    spanTo stop (u ++ v) = some (w, rest ++ v) := by
  obtain ⟨d, t, rfl, rfl, hw, hd⟩ := spanTo_iff.mp h
  rw [List.append_assoc]
  exact spanTo_append hw hd

theorem skipBlanks_head {r : Text} (h : skipBlanks u = some r) :
    (r ++ v).head? = r.head? := by
  obtain ⟨b, d, t, -, rfl, -⟩ := skipBlanks_iff.mp h
  rfl

/-- Arguments that are found in a text are found whatever stands behind it. -/
theorem findArgs_extend {r : Status × Command} (h : findArgs u cmd = some r) (v : Text) :
    findArgs (u ++ v) cmd = some r := by
  rw [findArgs] at h ⊢
  cases hflag : cmd.flag with
  | noargs =>
    simp only [hflag, Option.bind_eq_bind, Option.bind_eq_some_iff] at h ⊢
    obtain ⟨r₁, h₁, h⟩ := h
    exact ⟨r₁ ++ v, skipBlanks_extend h₁ v, by rw [skipBlanks_head h₁]; exact h⟩
  | intint =>
    simp only [hflag, Option.bind_eq_bind, Option.bind_eq_some_iff] at h ⊢
    obtain ⟨r₁, h₁, ⟨w₁, r₂⟩, h₂, r₃, h₃, ⟨w₂, r₄⟩, h₄, r₅, h₅, h⟩ := h
    exact ⟨r₁ ++ v, skipBlanks_extend h₁ v, (w₁, r₂ ++ v), spanTo_extend h₂ v, r₃ ++ v,
      skipBlanks_extend h₃ v, (w₂, r₄ ++ v), spanTo_extend h₄ v, r₅ ++ v, skipBlanks_extend h₅ v,
      by rw [skipBlanks_head h₅]; exact h⟩

end Extend

section Line

variable {u : Text} {stop : UInt8 → Bool} {cmd : Command}

theorem skipBlanks_line (u : Text) :
    skipBlanks (u ++ [newline]) = some (u.dropWhile blank ++ [newline]) := by
  induction u with
  | nil => rfl
  | cons c u ih =>
    rw [List.cons_append, skipBlanks]
    split
    · next hc => rw [List.dropWhile_cons_of_pos hc, ih]
    · next hc => rw [List.dropWhile_cons_of_neg hc, List.cons_append]

theorem spanTo_of_mem (h : ∃ x ∈ u, stop x = true) : ∃ w rest, spanTo stop u = some (w, rest) := by
  induction u with
  | nil =>
    obtain ⟨x, hx, -⟩ := h
    cases hx
  | cons c u ih =>
    by_cases hc : stop c = true
    · exact ⟨[], c :: u, by rw [spanTo, if_pos hc]⟩
    · obtain ⟨x, hx, hstop⟩ := h
      have hmem : x ∈ u := (List.mem_cons.mp hx).resolve_left fun heq => hc (heq ▸ hstop)
      obtain ⟨w, rest, hspan⟩ := ih ⟨x, hmem, hstop⟩
      exact ⟨c :: w, rest, by rw [spanTo, if_neg hc, hspan]; rfl⟩

/-- A loop that ends at newlines ends on the line. -/
theorem spanTo_line (hstop : stop newline = true) (u : Text) :
    ∃ w rest, spanTo stop (u ++ [newline]) = some (w, rest ++ [newline]) := by
  induction u with
  | nil => exact ⟨[], [], by rw [List.nil_append, spanTo, if_pos hstop]⟩
  | cons c u ih =>
    by_cases hc : stop c = true
    · exact ⟨[], c :: u, by rw [List.cons_append, spanTo, if_pos hc]⟩
    · obtain ⟨w, rest, hspan⟩ := ih
      exact ⟨c :: w, rest, by rw [List.cons_append, spanTo, if_neg hc, hspan]; rfl⟩

/-- The arguments are found on the line when a blank ends the first one. -/
theorem findArgs_line (hblank : cmd.flag = .intint → ∃ x ∈ u.dropWhile blank, blank x = true) :
    ∃ r, findArgs (u ++ [newline]) cmd = some r := by
  rw [findArgs]
  cases hflag : cmd.flag with
  | noargs =>
    simp only [skipBlanks_line, Option.bind_eq_bind, Option.bind_some]
    split <;> exact ⟨_, rfl⟩
  | intint =>
    obtain ⟨w₁, r₂, hspan⟩ := spanTo_of_mem (hblank hflag)
    obtain ⟨w₂, r₄, hspan'⟩ := spanTo_line stops_of_newline (r₂.dropWhile blank)
    have hspan'' : spanTo (fun c => blank c || c = newline) (r₂.dropWhile blank ++ [newline]) =
        some (w₂, r₄ ++ [newline]) := hspan'
    simp only [skipBlanks_line, spanTo_extend hspan, hspan'', Option.bind_eq_bind,
      Option.bind_some]
    split <;> exact ⟨_, rfl⟩

end Line

theorem parser_empty {rc : Int} (hrc : rc ≠ 1) (rest : Text) (cmd : Command) :
    parser (newline :: rest) rc cmd = some (.nocmd, cleared cmd) := by
  rw [parser, if_neg hrc]
  rfl

/-- What the second argument is when the first one runs on to the number behind the line. -/
theorem findArgs_overrun {line : Text} {cmd : Command} (hflag : cmd.flag = .intint)
    (hnone : ∀ x ∈ argStart line, blank x = false) {d : UInt8} (hd : stops d = false) :
    findArgs (behind line ++ newline :: [space, d, newline]) cmd =
      some (.success, storeArgs (argStart line ++ [newline]) [d] cmd) := by
  have hcut : Cut (behind line ++ newline :: [space, d, newline]) ((behind line).takeWhile blank)
      (argStart line ++ [newline]) [space] [d] [] newline [] := by
    refine ⟨?_, fun c hc => List.mem_takeWhile_imp hc, by decide, by decide, ?_, ?_, by decide,
      by simp, by simp, fun _ => rfl, fun _ => rfl⟩
    · have hsplit : (behind line).takeWhile blank ++ argStart line = behind line :=
        List.takeWhile_append_dropWhile
      conv_lhs => rw [← hsplit]
      simp
    · intro c hc
      rcases List.mem_append.mp hc with hc | hc
      · exact hnone c hc
      · exact List.mem_singleton.mp hc ▸ by decide
    · exact fun c hc => List.mem_singleton.mp hc ▸ hd
  exact findArgs_cut hflag hcut

/-- A request depends on its own line alone exactly when the loop over its first argument ends
on the line. -/
theorem own_line_iff {line : Text} (hline : newline ∉ line) (rc : Int) (cmd : Command) :
    (∀ rest rest', parser (line ++ newline :: rest) rc cmd =
      parser (line ++ newline :: rest') rc cmd) ↔ ¬ Overruns line rc := by
  constructor
  · rintro hsame ⟨hrc, ⟨c, hsel, hflag⟩, hnone⟩
    have hne : line ≠ [] := by
      rintro rfl
      obtain rfl : (Flag.noargs, ascii "exit", Handler.exitClient) = c := Option.some.inj hsel
      cases hflag
    have hflag' : (select c (cleared cmd)).flag = .intint := hflag
    have h := hsame [space, 49, newline] [space, 50, newline]
    rw [parser_line hline hne hrc, parser_line hline hne hrc, hsel] at h
    simp only [findArgs_overrun hflag' hnone (show stops 49 = false by decide),
      findArgs_overrun hflag' hnone (show stops 50 = false by decide), Option.map_some,
      Option.some.injEq] at h
    have hargs := congrFun (congrArg (fun r => r.2.args) h) 2
    cases hargs
  · intro hnot
    suffices hfixed : ∃ r, ∀ rest, parser (line ++ newline :: rest) rc cmd = some r by
      obtain ⟨r, hr⟩ := hfixed
      exact fun rest rest' => (hr rest).trans (hr rest').symm
    by_cases hrc : rc = 1
    · exact ⟨(.nl, cmd), fun rest => by rw [parser, if_pos hrc]⟩
    by_cases hne : line = []
    · exact ⟨(.nocmd, cleared cmd), fun rest => hne ▸ parser_empty hrc rest cmd⟩
    cases hsel : selected (firstToken line) with
    | none => exact ⟨_, fun rest => by rw [parser_line hline hne hrc, hsel]⟩
    | some c =>
      have hblank : (select c (cleared cmd)).flag = .intint →
          ∃ x ∈ argStart line, blank x = true := by
        intro hflag
        by_contra hno
        refine hnot ⟨hrc, ⟨c, hsel, hflag⟩, fun x hx => ?_⟩
        exact Bool.eq_false_iff.mpr fun hb => hno ⟨x, hx, hb⟩
      obtain ⟨r, hr⟩ := findArgs_line hblank
      refine ⟨verdict r, fun rest => ?_⟩
      have hext := findArgs_extend hr rest
      rw [List.append_assoc, List.singleton_append] at hext
      rw [parser_line hline hne hrc, hsel]
      exact congrArg (Option.map verdict) hext

theorem own_line_iff_sell :
    (∀ rest rest', parser (ascii "sell 1 5" ++ newline :: rest) 9 clearCommand =
      parser (ascii "sell 1 5" ++ newline :: rest') 9 clearCommand) ↔
        ¬ Overruns (ascii "sell 1 5") 9 :=
  own_line_iff (by decide) 9 clearCommand

/-- A sale of stock 1 without a number sells what a longer line has left behind it, or is
refused for that. -/
theorem leftover_sold : ∃ line rest rest', newline ∉ line ∧
    (parser (line ++ newline :: rest) 7 clearCommand).map (fun r => (r.1, r.2.args 2)) =
      some (.success, some (ascii "7")) ∧
    (parser (line ++ newline :: rest') 7 clearCommand).map (fun r => (r.1, r.2.args 2)) =
      some (.invarg, some (ascii "9")) ∧
    parser (line ++ newline :: rest) 7 clearCommand ≠
      parser (line ++ newline :: rest') 7 clearCommand := by
  have h₁ : (parser (ascii "sell 1" ++ newline :: ascii "\x00 7\n") 7 clearCommand).map
      (fun r => (r.1, r.2.args 2)) = some (.success, some (ascii "7")) := by decide
  have h₂ : (parser (ascii "sell 1" ++ newline :: ascii "\x00 9 9\n") 7 clearCommand).map
      (fun r => (r.1, r.2.args 2)) = some (.invarg, some (ascii "9")) := by decide
  refine ⟨ascii "sell 1", ascii "\x00 7\n", ascii "\x00 9 9\n", by decide, h₁, h₂, fun h => ?_⟩
  rw [h, h₂] at h₁
  cases h₁

end SystemSoftware.RequestIndependence
