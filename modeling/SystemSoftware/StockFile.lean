import SystemSoftware.StockTree

/-!
The stock file of the stock server: stockfile_handle.c over a stream of bytes.
A `%s` of `fscanf` skips white space and takes the word behind it; at the end
of the file it leaves its buffer as it was. The loop of `read_stockfile` inserts
what is in the buffers after every `fscanf`, and ends once a read has met the
end of the file. `none` is a word that does not fit its buffer.
-/
namespace SystemSoftware.StockFile

open DecimalText StockTree

/-- A stream: the bytes not read yet, and whether a read has met the end. -/
structure Stream where
  rest : Text
  eof : Bool

def skipSpaces (f : Stream) : Stream :=
  let rest := f.rest.dropWhile isSpace
  ⟨rest, f.eof || rest.isEmpty⟩

/-- `%s`: the word that is stored, if there is one. -/
def scanWord (f : Stream) : Option (Option Text × Stream) :=
  let f := skipSpaces f
  let word := f.rest.takeWhile (!isSpace ·)
  let rest := f.rest.dropWhile (!isSpace ·)
  if word = [] then some (none, f)
  else if word.length < maxline then some (some word, ⟨rest, f.eof || rest.isEmpty⟩)
  else none

abbrev Buffers := Text × Text × Text

/-- `fscanf(fp,"%s %s %s\n",id,count,price)`. -/
def scanRecord (f : Stream) (b : Buffers) : Option (Buffers × Stream) := do
  match ← scanWord f with
  | (none, f) => some (b, f)
  | (some id, f) =>
    match ← scanWord (skipSpaces f) with
    | (none, f) => some ((id, b.2), f)
    | (some count, f) =>
      match ← scanWord (skipSpaces f) with
      | (none, f) => some ((id, count, b.2.2), f)
      | (some price, f) => some ((id, count, price), skipSpaces f)

def insertBuffers (root : Stock) (b : Buffers) : Stock :=
  insert root (atoi b.1) (atoi b.2.1) (atoi b.2.2)

def readLoop : ℕ → Stream → Buffers → Stock → Option Stock
  | 0, _, _, _ => none
  | fuel + 1, f, b, root =>
    if f.eof then some root
    else do
      let (b, f) ← scanRecord f b
      readLoop fuel f b (insertBuffers root b)

/-- `read_stockfile` with any bytes in its buffers at the start. Every round but
the last takes a byte. -/
def readStockfile (root : Stock) (file : Text) (b : Buffers) : Option Stock :=
  readLoop (file.length + 2) ⟨file, false⟩ b root

/-- `write` from the start of a file that is not truncated. -/
def overwrite (file buf : Text) : Text := buf ++ file.drop buf.length

def fsyncStockfile (root : Stock) (file : Text) : Option Text := do
  let (_, buf) ← printToBuf root []
  some (overwrite file buf)

section Scan

variable {f : Stream} {w : Text} {ws : List Text}

/-- At the end, or with white space only in front of it, nothing is scanned. -/
theorem scanWord_nil (h : words f.rest = []) : scanWord f = some (none, ⟨[], true⟩) := by
  have hskip := words_eq_nil_iff.mp h
  simp [scanWord, skipSpaces, hskip]

theorem scanWord_cons (h : words f.rest = w :: ws) (hw : w.length < maxline) :
    ∃ g, scanWord f = some (some w, g) ∧ words g.rest = ws ∧
      g.rest.length < f.rest.length ∧ g.eof = (f.eof || g.rest.isEmpty) := by
  have hne : f.rest.dropWhile isSpace ≠ [] := by
    intro heq
    rw [words_eq_nil_iff.mpr heq] at h
    exact List.cons_ne_nil _ _ h.symm
  obtain ⟨c, r, hr⟩ := List.exists_cons_of_ne_nil hne
  have hc : isSpace c = false := by
    have hhead := List.head?_dropWhile_not isSpace f.rest
    simpa [hr] using hhead
  rw [← words_dropWhile, hr, words_cons hc, List.cons.injEq] at h
  obtain ⟨rfl, hws⟩ := h
  have hword : (c :: r).takeWhile (!isSpace ·) ≠ [] := by simp [hc]
  have hlen : ((c :: r).dropWhile (!isSpace ·)).length < f.rest.length := by
    have hle := (List.dropWhile_suffix isSpace (l := f.rest)).length_le
    have hle' := (List.dropWhile_suffix (!isSpace ·) (l := r)).length_le
    rw [hr, List.length_cons] at hle
    rw [List.dropWhile_cons_of_pos (by simp [hc])]
    omega
  refine ⟨⟨_, f.eof || ((c :: r).dropWhile (!isSpace ·)).isEmpty⟩, ?_, hws, hlen, rfl⟩
  simp only [scanWord, skipSpaces, hr, if_neg hword, if_pos hw, List.isEmpty_cons, Bool.or_false]
  rfl

end Scan

/-- What the buffers hold at the insertions, for the words of a file: a last
group of one or two words keeps the rest of the group before it. -/
def groups (b : Buffers) : List Text → List Buffers
  | [] => [b]
  | [x] => [(x, b.2)]
  | [x, y] => [(x, y, b.2.2)]
  | [x, y, z] => [(x, y, z)]
  | x :: y :: z :: w :: ws => (x, y, z) :: groups (x, y, z) (w :: ws)

section Read

variable {f : Stream} {b : Buffers} {x y z : Text} {ws : List Text}

theorem scanRecord_nil (h : words f.rest = []) : scanRecord f b = some (b, ⟨[], true⟩) := by
  simp [scanRecord, scanWord_nil h]

theorem words_skipSpaces (f : Stream) : words (skipSpaces f).rest = words f.rest :=
  words_dropWhile f.rest

/-- While a word is left, skipping white space does not meet the end. -/
theorem skipSpaces_eof (h : words f.rest ≠ []) : (skipSpaces f).eof = f.eof := by
  cases hr : f.rest.dropWhile isSpace with
  | nil => exact absurd (words_eq_nil_iff.mpr hr) h
  | cons c r => simp [skipSpaces, hr]

theorem isEmpty_of_words (h : words f.rest ≠ []) : f.rest.isEmpty = false := by
  cases hr : f.rest with
  | nil =>
    rw [hr] at h
    exact absurd words_nil h
  | cons c r => rfl

theorem scanRecord_one (h : words f.rest = [x]) (hx : x.length < maxline) :
    scanRecord f b = some ((x, b.2), ⟨[], true⟩) := by
  obtain ⟨g₁, h₁, hw₁, -⟩ := scanWord_cons h hx
  have h₂ := scanWord_nil ((words_skipSpaces g₁).trans hw₁)
  simp only [scanRecord, h₁, h₂, Option.bind_eq_bind, Option.bind_some]

theorem scanRecord_two (h : words f.rest = [x, y]) (hx : x.length < maxline)
    (hy : y.length < maxline) : scanRecord f b = some ((x, y, b.2.2), ⟨[], true⟩) := by
  obtain ⟨g₁, h₁, hw₁, -⟩ := scanWord_cons h hx
  obtain ⟨g₂, h₂, hw₂, -⟩ := scanWord_cons ((words_skipSpaces g₁).trans hw₁) hy
  have h₃ := scanWord_nil ((words_skipSpaces g₂).trans hw₂)
  simp only [scanRecord, h₁, h₂, h₃, Option.bind_eq_bind, Option.bind_some]

/-- A full record is scanned, and the end is met when it was the last one. -/
theorem scanRecord_three (h : words f.rest = x :: y :: z :: ws) (hf : f.eof = false)
    (hx : x.length < maxline) (hy : y.length < maxline) (hz : z.length < maxline) :
    ∃ rest, scanRecord f b = some ((x, y, z), ⟨rest, decide (ws = [])⟩) ∧ words rest = ws ∧
      rest.length < f.rest.length := by
  have hskip : ∀ g : Stream, (skipSpaces g).rest.length ≤ g.rest.length := fun g =>
    (List.dropWhile_suffix isSpace).length_le
  obtain ⟨g₁, h₁, hw₁, hl₁, he₁⟩ := scanWord_cons h hx
  obtain ⟨g₂, h₂, hw₂, hl₂, he₂⟩ := scanWord_cons ((words_skipSpaces g₁).trans hw₁) hy
  obtain ⟨g₃, h₃, hw₃, hl₃, he₃⟩ := scanWord_cons ((words_skipSpaces g₂).trans hw₂) hz
  have hne₁ : words g₁.rest ≠ [] := by simp [hw₁]
  have hne₂ : words g₂.rest ≠ [] := by simp [hw₂]
  rw [skipSpaces_eof hne₂, he₂, skipSpaces_eof hne₁, he₁, hf, isEmpty_of_words hne₁,
    isEmpty_of_words hne₂, Bool.false_or, Bool.false_or, Bool.false_or] at he₃
  have heof : (skipSpaces g₃).eof = decide (ws = []) := by
    rw [← hw₃]
    simp only [skipSpaces, he₃, words_eq_nil_iff]
    cases hd : g₃.rest.dropWhile isSpace with
    | nil => simp
    | cons c r =>
      have hne : g₃.rest ≠ [] := by
        rintro heq
        simp [heq] at hd
      simp [hne]
  refine ⟨(skipSpaces g₃).rest, ?_, (words_skipSpaces g₃).trans hw₃, ?_⟩
  · simp only [scanRecord, h₁, h₂, h₃, Option.bind_eq_bind, Option.bind_some, ← heof]
  · have hs₁ := hskip g₁
    have hs₂ := hskip g₂
    have hs₃ := hskip g₃
    omega

/-- The loop inserts what the groups of words say. -/
theorem readLoop_eq (fuel : ℕ) : ∀ (rest : Text) (b : Buffers) (root : Stock),
    rest.length + 2 ≤ fuel → (∀ w ∈ words rest, w.length < maxline) →
    readLoop fuel ⟨rest, false⟩ b root =
      some ((groups b (words rest)).foldl insertBuffers root) := by
  induction fuel with
  | zero => exact fun _ _ _ hfuel => absurd hfuel (by omega)
  | succ fuel ih =>
    intro rest b root hfuel hw
    have hend : ∀ r : Stock, ∀ c : Buffers, ∀ t : Text, readLoop fuel ⟨t, true⟩ c r = some r := by
      intro r c t
      obtain ⟨n, rfl⟩ := Nat.exists_eq_succ_of_ne_zero (show fuel ≠ 0 by omega)
      rfl
    have hstep : readLoop (fuel + 1) ⟨rest, false⟩ b root =
        (scanRecord ⟨rest, false⟩ b).bind fun r => readLoop fuel r.2 r.1 (insertBuffers root r.1) :=
      rfl
    rw [hstep]
    match hws : words rest with
    | [] =>
      rw [scanRecord_nil hws, Option.bind_some, hend]
      rfl
    | [x] =>
      rw [scanRecord_one hws (hw x (by simp [hws])), Option.bind_some, hend]
      rfl
    | [x, y] =>
      rw [scanRecord_two hws (hw x (by simp [hws])) (hw y (by simp [hws])), Option.bind_some, hend]
      rfl
    | x :: y :: z :: ws =>
      obtain ⟨rest', hscan, hws', hlen⟩ := scanRecord_three (f := ⟨rest, false⟩) (b := b) hws rfl
        (hw x (by simp [hws])) (hw y (by simp [hws])) (hw z (by simp [hws]))
      rw [hscan, Option.bind_some]
      cases ws with
      | nil => exact hend _ _ _
      | cons w ws =>
        have hrec := ih rest' (x, y, z) (insertBuffers root (x, y, z))
          (by simp only at hlen; omega) (fun v hv => hw v (by
            rw [hws, ← hws']
            simp [hv]))
        rw [hws'] at hrec
        exact hrec

end Read

end SystemSoftware.StockFile
