import SystemSoftware.DecimalText

/-!
The directives %s, %d and %u of fscanf, for 32-bit numbers, as functions of the text that
has not been read. White space in front is skipped. A number without a digit is not
assigned, but its sign has been read; what C leaves undefined, a number that does not fit,
has no result.
-/
namespace SystemSoftware.FileScan

open DecimalText

/-- `%s`: the next word; `none` is the end of the file. -/
def scanWord (t : Text) : Option (Text × Text) :=
  match t.dropWhile isSpace with
  | [] => none
  | c :: t => some ((c :: t).takeWhile (!isSpace ·), (c :: t).dropWhile (!isSpace ·))

def scanNumber (t : Text) : Option (Bool × ℕ) × Text :=
  let (negative, t) := readSign (t.dropWhile isSpace)
  let digits := t.takeWhile isDigit
  (if digits = [] then none else some (negative, readNat digits), t.dropWhile isDigit)

def signed (negative : Bool) (n : ℕ) : ℤ := if negative then -n else n

/-- `%d`, which leaves its variable alone when there is no number. -/
def scanInt (x : Option ℤ) (t : Text) : Option (Option ℤ × Text) :=
  match scanNumber t with
  | (none, rest) => some (x, rest)
  | (some (negative, n), rest) =>
    if -2 ^ 31 ≤ signed negative n ∧ signed negative n < 2 ^ 31 then
      some (some (signed negative n), rest)
    else none

/-- `%u`; a minus sign is taken modulo 2^32. -/
def scanUnsigned (t : Text) : Option (Option ℕ × Text) :=
  match scanNumber t with
  | (none, rest) => some (none, rest)
  | (some (negative, n), rest) =>
    if n < 2 ^ 32 then some (some (if negative then (2 ^ 32 - n) % 2 ^ 32 else n), rest) else none

def printZ (z : ℤ) : Text := if z < 0 then minus :: printNat z.natAbs else printNat z.natAbs

section Printed

variable {n : ℕ} {z : ℤ} {c : UInt8} {t u w : Text} {x : Option ℤ}

theorem scanWord_space (hc : isSpace c = true) (t : Text) : scanWord (c :: t) = scanWord t := by
  rw [scanWord, List.dropWhile_cons_of_pos hc]
  rfl

/-- A word is read up to the white space behind it. -/
theorem scanWord_word (hne : w ≠ []) (hw : ∀ d ∈ w, isSpace d = false) (hc : isSpace c = true)
    (u : Text) : scanWord (w ++ c :: u) = some (w, c :: u) := by
  obtain ⟨d, w, rfl⟩ := List.exists_cons_of_ne_nil hne
  have hd : isSpace d = false := hw d List.mem_cons_self
  have hall : ∀ e ∈ d :: w, (!isSpace e) = true := fun e he => by rw [hw e he]; rfl
  have hstop : ¬ (!isSpace c) = true := by rw [hc]; decide
  rw [scanWord, List.cons_append, List.dropWhile_cons_of_neg (by rw [hd]; decide)]
  simp only [← List.cons_append]
  rw [List.takeWhile_append_of_pos hall, List.dropWhile_append_of_pos hall,
    List.takeWhile_cons_of_neg (p := (!isSpace ·)) hstop,
    List.dropWhile_cons_of_neg (p := (!isSpace ·)) hstop, List.append_nil]

theorem scanNumber_space (hc : isSpace c = true) (t : Text) :
    scanNumber (c :: t) = scanNumber t := by
  rw [scanNumber, List.dropWhile_cons_of_pos hc]
  rfl

theorem takeWhile_digits (hc : isDigit c = false) (n : ℕ) (u : Text) :
    (printNat n ++ c :: u).takeWhile isDigit = printNat n ∧
      (printNat n ++ c :: u).dropWhile isDigit = c :: u := by
  have hstop : ¬ isDigit c = true := by rw [hc]; decide
  rw [List.takeWhile_append_of_pos (printNat_digits n), List.dropWhile_append_of_pos
    (printNat_digits n), List.takeWhile_cons_of_neg hstop, List.dropWhile_cons_of_neg hstop,
    List.append_nil]
  exact ⟨rfl, rfl⟩

/-- A printed number is read back. -/
theorem scanNumber_nat (hc : isDigit c = false) (n : ℕ) (u : Text) :
    scanNumber (printNat n ++ c :: u) = (some (false, n), c :: u) := by
  obtain ⟨d, t, heq, hd⟩ := printNat_cons n
  have hspace := isSpace_of_isDigit hd
  obtain ⟨htake, hdrop⟩ := takeWhile_digits hc n u
  rw [scanNumber, heq, List.cons_append, List.dropWhile_cons_of_neg (by rw [hspace]; decide),
    readSign_digits hd, ← List.cons_append, ← heq]
  simp only [htake, hdrop, if_neg (printNat_ne_nil n), readNat_printNat]

theorem scanNumber_minus (hc : isDigit c = false) (n : ℕ) (u : Text) :
    scanNumber (minus :: (printNat n ++ c :: u)) = (some (true, n), c :: u) := by
  obtain ⟨htake, hdrop⟩ := takeWhile_digits hc n u
  rw [scanNumber, List.dropWhile_cons_of_neg (by decide), readSign, if_pos rfl]
  simp only [htake, hdrop, if_neg (printNat_ne_nil n), readNat_printNat]

/-- `%d` undoes the printing of an int, whatever the variable held. -/
theorem scanInt_printZ (hlo : -2 ^ 31 ≤ z) (hhi : z < 2 ^ 31) (hc : isDigit c = false)
    (x : Option ℤ) (u : Text) : scanInt x (printZ z ++ c :: u) = some (some z, c :: u) := by
  by_cases hneg : z < 0
  · have hvalue : signed true z.natAbs = z := by
      rw [signed, if_pos rfl]
      omega
    rw [printZ, if_pos hneg, List.cons_append, scanInt, scanNumber_minus hc]
    simp only [hvalue, if_pos (And.intro hlo hhi)]
  · have hvalue : signed false z.natAbs = z := by
      rw [signed, if_neg Bool.false_ne_true]
      omega
    rw [printZ, if_neg hneg, scanInt, scanNumber_nat hc]
    simp only [hvalue, if_pos (And.intro hlo hhi)]

theorem scanUnsigned_nat (hn : n < 2 ^ 32) (hc : isDigit c = false) (u : Text) :
    scanUnsigned (printNat n ++ c :: u) = some (some n, c :: u) := by
  rw [scanUnsigned, scanNumber_nat hc]
  simp only [if_pos hn, Bool.false_eq_true, if_false]

theorem scanInt_space (hc : isSpace c = true) (x : Option ℤ) (t : Text) :
    scanInt x (c :: t) = scanInt x t := by
  rw [scanInt, scanNumber_space hc]
  rfl

theorem scanUnsigned_space (hc : isSpace c = true) (t : Text) :
    scanUnsigned (c :: t) = scanUnsigned t := by
  rw [scanUnsigned, scanNumber_space hc]
  rfl

end Printed

section Read

variable {n : ℕ} {z : ℤ} {t w rest : Text} {x y : Option ℤ} {m : Option ℕ}

theorem readSign_length (t : Text) : (readSign t).2.length ≤ t.length := by
  cases t with
  | nil => exact le_rfl
  | cons c t =>
    rw [readSign]
    split
    · exact Nat.le_succ _
    · split
      · exact Nat.le_succ _
      · exact le_rfl

theorem scanNumber_length (t : Text) : (scanNumber t).2.length ≤ t.length := by
  have hdigits := (List.dropWhile_suffix isDigit
    (l := (readSign (t.dropWhile isSpace)).2)).length_le
  have hspace := (List.dropWhile_suffix isSpace (l := t)).length_le
  exact hdigits.trans ((readSign_length _).trans hspace)

theorem scanUnsigned_spec (h : scanUnsigned t = some (m, rest)) :
    rest.length ≤ t.length ∧ ∀ n, m = some n → n < 2 ^ 32 := by
  have hlen := scanNumber_length t
  rw [scanUnsigned] at h
  split at h
  · next heq =>
    obtain ⟨rfl, rfl⟩ := Prod.mk.inj (Option.some.inj h)
    rw [heq] at hlen
    exact ⟨hlen, fun n hn => by cases hn⟩
  · next negative k _ heq =>
    split at h
    · next hk =>
      obtain ⟨rfl, rfl⟩ := Prod.mk.inj (Option.some.inj h)
      rw [heq] at hlen
      refine ⟨hlen, fun n hn => ?_⟩
      rw [← Option.some.inj hn]
      split <;> omega
    · cases h

theorem scanInt_spec (h : scanInt x t = some (y, rest)) :
    rest.length ≤ t.length ∧ (y = x ∨ ∃ z, y = some z ∧ -2 ^ 31 ≤ z ∧ z < 2 ^ 31) := by
  have hlen := scanNumber_length t
  rw [scanInt] at h
  split at h
  · next heq =>
    obtain ⟨rfl, rfl⟩ := Prod.mk.inj (Option.some.inj h)
    rw [heq] at hlen
    exact ⟨hlen, Or.inl rfl⟩
  · next negative k _ heq =>
    split at h
    · next hz =>
      obtain ⟨rfl, rfl⟩ := Prod.mk.inj (Option.some.inj h)
      rw [heq] at hlen
      exact ⟨hlen, Or.inr ⟨_, rfl, hz⟩⟩
    · cases h

end Read

end SystemSoftware.FileScan
