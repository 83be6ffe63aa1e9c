import SystemSoftware.RequestTokens

/-!
Well-formed requests: the name of a command and the arguments that it takes, with
blanks between them. Such a line is decoded to its command and its arguments, and
one token more is one too many, whatever the buffer holds behind the line.
-/
namespace SystemSoftware.RequestDecoding

open DecimalText StockTree RequestParser RequestTokens

def Token (w : Text) : Prop := w ≠ [] ∧ Unbroken w

def Gap (b : Text) : Prop := b ≠ [] ∧ Blanks b

/-- The lines, without their newline, of a command of the list and its arguments. -/
inductive Request : Entry → List Text → Text → Prop
  | bare {name trail : Text} {fp : Handler} (hcmd : (.noargs, name, fp) ∈ commandList)
      (htrail : Blanks trail) : Request (.noargs, name, fp) [] (name ++ trail)
  | trade {name b₁ w₁ b₂ w₂ trail : Text} {fp : Handler}
      (hcmd : (.intint, name, fp) ∈ commandList) (hb₁ : Gap b₁) (hw₁ : Token w₁) (hb₂ : Gap b₂)
      (hw₂ : Token w₂) (htrail : Blanks trail) :
      Request (.intint, name, fp) [w₁, w₂] (name ++ (b₁ ++ (w₁ ++ (b₂ ++ (w₂ ++ trail)))))

/-- The command is `c` with the arguments `ws`, as far as a C string holds them. -/
structure Holds (cmd : Command) (c : Entry) (ws : List Text) : Prop where
  name : cmd.name = c.2.1
  fp : cmd.fp = c.2.2
  args : ∀ i w, ws[i]? = some w → cmd.args (i + 1) = some (strncpy w)
  argc : cmd.argc = ws.length + 1

section Decode

variable {name buf : Text} {c : Entry} {fp : Handler} {rc : Int} {cmd : Command}

/-- No name of the list is the beginning of another one. -/
theorem selected_name (hc : c ∈ commandList) :
    selected c.2.1 = some c ∧ Unbroken c.2.1 ∧ c.2.1 ≠ [] := by
  simp only [commandList, List.mem_cons, List.not_mem_nil, or_false] at hc
  rcases hc with rfl | rfl | rfl | rfl <;> decide

/-- Behind the name of a command stand its arguments. -/
theorem parser_name (hc : c ∈ commandList) (hrc : rc ≠ 1) {b : Text} {x : UInt8} (hb : Blanks b)
    (hx : b = [] → x = newline) (t : Text) (cmd : Command) :
    parser (c.2.1 ++ (b ++ x :: t)) rc cmd =
      (findArgs (b ++ x :: t) (select c (cleared cmd))).map verdict := by
  obtain ⟨hsel, hname, hne⟩ := selected_name hc
  have hstop : ∃ d s, b ++ x :: t = d :: s ∧ stops d = true := by
    cases b with
    | nil => exact ⟨x, t, rfl, hx rfl ▸ stops_of_newline⟩
    | cons d b => exact ⟨d, b ++ x :: t, rfl, stops_of_blank (hb d List.mem_cons_self)⟩
  obtain ⟨d, s, hs, hd⟩ := hstop
  rw [hs, parser_eq hrc hname hd (fun h => absurd h hne), hsel]

variable {trail t : Text} {x : UInt8}

theorem parser_bare (hc : (.noargs, name, fp) ∈ commandList) (hrc : rc ≠ 1) (htrail : Blanks trail)
    (hx : blank x = false) (hbare : trail = [] → x = newline) :
    parser (name ++ (trail ++ x :: t)) rc cmd =
      some (verdict (ending x, select (.noargs, name, fp) (cleared cmd))) := by
  have hname := parser_name hc hrc htrail hbare t cmd
  rw [findArgs_bare rfl htrail hx] at hname
  exact hname

theorem parser_trade {b₁ w₁ b₂ w₂ : Text} (hc : (.intint, name, fp) ∈ commandList) (hrc : rc ≠ 1)
    (hb₁ : Gap b₁) (hw₁ : Token w₁) (hb₂ : Gap b₂) (hw₂ : Token w₂) (htrail : Blanks trail)
    (hx : blank x = false) (hbare : trail = [] → x = newline) :
    parser (name ++ (b₁ ++ (w₁ ++ (b₂ ++ (w₂ ++ (trail ++ x :: t)))))) rc cmd =
      some (verdict (ending x, storeArgs w₁ w₂ (select (.intint, name, fp) (cleared cmd)))) := by
  obtain ⟨d, s, -, hs⟩ := exists_head hw₁.1 (b₂ ++ (w₂ ++ (trail ++ x :: t)))
  have hname := parser_name hc hrc hb₁.2 (fun h => absurd h hb₁.1) s cmd (x := d)
  rw [← hs, findArgs_cut rfl ⟨rfl, hb₁.2, hb₂.2, htrail, fun c hc => blank_of_unbroken (hw₁.2 c hc),
    hw₂.2, hx, hw₁.1, hb₂.1, hbare, fun h => absurd h hw₂.1⟩] at hname
  exact hname

end Decode

/-- A well-formed request is decoded to its command and arguments, each argument up to its first
NUL byte. With one token more it is refused, whatever stands behind that. -/
theorem request_decoded {c : Entry} {ws : List Text} {line : Text} {rc : Int}
    (hline : Request c ws line) (hrc : rc ≠ 1) (rest : Text) (cmd : Command) :
    (∃ cmd', parser (line ++ newline :: rest) rc cmd = some (.success, cmd') ∧ Holds cmd' c ws) ∧
      ∀ b w, Gap b → Token w → ∃ cmd',
        parser (line ++ (b ++ (w ++ rest))) rc cmd = some (.invarg, cmd') := by
  have hnl : blank newline = false := by decide
  -- Behind the trailing blanks and the gap the token one too many is met.
  have hmore : ∀ {trail b w : Text}, Blanks trail → Gap b → Token w → ∃ x t,
      trail ++ (b ++ (w ++ rest)) = (trail ++ b) ++ x :: t ∧ Blanks (trail ++ b) ∧
        trail ++ b ≠ [] ∧ blank x = false ∧ ending x = .error := by
    intro trail b w htrail hb hw
    obtain ⟨x, t, hx, ht⟩ := exists_head hw.1 rest
    refine ⟨x, t, by rw [ht, List.append_assoc], ?_, fun h => hb.1 (List.append_eq_nil_iff.mp h).2,
      blank_of_unbroken (hw.2 x hx), if_neg (ne_newline_of_unbroken (hw.2 x hx))⟩
    exact fun c hc => (List.mem_append.mp hc).elim (htrail c) (hb.2 c)
  cases hline with
  | @bare name trail fp hcmd htrail =>
    constructor
    · refine ⟨select (.noargs, name, fp) (cleared cmd), ?_, rfl, rfl, fun i w h => ?_, rfl⟩
      · rw [List.append_assoc, parser_bare hcmd hrc htrail hnl fun _ => rfl]
        rfl
      · simp at h
    · intro b w hb hw
      obtain ⟨x, t, heq, hblanks, hne, hx, hend⟩ := hmore htrail hb hw
      refine ⟨select (.noargs, name, fp) (cleared cmd), ?_⟩
      rw [List.append_assoc, heq, parser_bare hcmd hrc hblanks hx fun h => absurd h hne, hend]
      rfl
  | @trade name b₁ w₁ b₂ w₂ trail fp hcmd hb₁ hw₁ hb₂ hw₂ htrail =>
    simp only [List.append_assoc]
    constructor
    · refine ⟨storeArgs w₁ w₂ (select (.intint, name, fp) (cleared cmd)), ?_, rfl, rfl, ?_, rfl⟩
      · rw [parser_trade hcmd hrc hb₁ hw₁ hb₂ hw₂ htrail hnl fun _ => rfl]
        rfl
      · intro i w h
        match i with
        | 0 =>
          obtain rfl := Option.some.inj h
          rfl
        | 1 =>
          obtain rfl := Option.some.inj h
          rfl
        | i + 2 => simp at h
    · intro b w hb hw
      obtain ⟨x, t, heq, hblanks, hne, hx, hend⟩ := hmore htrail hb hw
      refine ⟨storeArgs w₁ w₂ (select (.intint, name, fp) (cleared cmd)), ?_⟩
      rw [heq, parser_trade hcmd hrc hb₁ hw₁ hb₂ hw₂ hblanks hx fun h => absurd h hne, hend]
      rfl

theorem request_decoded_trade :
    (∃ cmd', parser (ascii "buy 1 5" ++ newline :: ascii "sell") 8 clearCommand =
      some (.success, cmd') ∧ Holds cmd' (.intint, ascii "buy", .buy) [ascii "1", ascii "5"]) ∧
    ∀ b w, Gap b → Token w → ∃ cmd',
      parser (ascii "buy 1 5" ++ (b ++ (w ++ ascii "sell"))) 8 clearCommand =
        some (.invarg, cmd') := by
  have hgap : Gap (ascii " ") := ⟨by decide, by decide⟩
  have hline : Request (.intint, ascii "buy", .buy) [ascii "1", ascii "5"]
      (ascii "buy" ++ (ascii " " ++ (ascii "1" ++ (ascii " " ++ (ascii "5" ++ []))))) :=
    .trade (by decide) hgap ⟨by decide, by decide⟩ hgap ⟨by decide, by decide⟩ (by decide)
  exact request_decoded hline (by norm_num) (ascii "sell") clearCommand

/-- Of an argument that begins with a NUL byte nothing is kept. -/
theorem request_cut : ∃ w cmd', Token w ∧
    Request (.intint, ascii "sell", .sell) [w, ascii "1"]
      (ascii "sell" ++ (ascii " " ++ (w ++ (ascii " " ++ (ascii "1" ++ []))))) ∧
    parser (ascii "sell" ++ (ascii " " ++ (w ++ (ascii " " ++ (ascii "1" ++ [])))) ++ newline :: [])
      10 clearCommand = some (.success, cmd') ∧ cmd'.args 1 = some [] ∧ cmd'.args 1 ≠ some w := by
  have hw : Token [0, 120] := ⟨by decide, by decide⟩
  have hgap : Gap (ascii " ") := ⟨by decide, by decide⟩
  have hone : Token (ascii "1") := ⟨by decide, by decide⟩
  refine ⟨[0, 120], storeArgs [0, 120] (ascii "1")
    (select (.intint, ascii "sell", .sell) (cleared clearCommand)), hw,
    .trade (by decide) hgap hw hgap hone (by decide), rfl, by decide, by decide⟩

end SystemSoftware.RequestDecoding
