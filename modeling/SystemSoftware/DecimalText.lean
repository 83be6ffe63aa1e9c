import Mathlib.Data.List.TakeWhile
import Mathlib.Data.Nat.Digits.Defs

/-!
Texts of the C library as lists of bytes: white space and the words between it,
and 32-bit ints in decimal, printed as by `%d` and read as by `atoi`. Reading
gives back what was printed.
-/
namespace SystemSoftware.DecimalText

abbrev Text := List UInt8

abbrev space : UInt8 := 32
abbrev tab : UInt8 := 9
abbrev newline : UInt8 := 10
abbrev minus : UInt8 := 45
abbrev plus : UInt8 := 43

def ascii (s : String) : Text := s.toList.map fun c => UInt8.ofNat c.toNat

def isSpace (c : UInt8) : Bool := c = space || (9 ≤ c && c ≤ 13)

def isDigit (c : UInt8) : Bool := 48 ≤ c && c ≤ 57

def words (t : Text) : List Text := (t.splitOnP isSpace).filter (· ≠ [])

section Words

variable {t u w : Text} {c : UInt8}

@[simp] theorem words_nil : words [] = [] := rfl

theorem words_append_space (t u : Text) (hc : isSpace c = true) :
    words (t ++ c :: u) = words t ++ words u := by
  rw [words, List.splitOnP_append_cons t u hc, List.filter_append]
  rfl

theorem words_space (u : Text) (hc : isSpace c = true) : words (c :: u) = words u :=
  words_append_space [] u hc

theorem words_of_no_space (hne : w ≠ []) (hw : ∀ c ∈ w, isSpace c = false) : words w = [w] := by
  rw [words, List.splitOnP_eq_singleton hw]
  simp [hne]

/-- A word and the white space behind it. -/
theorem words_word (hne : w ≠ []) (hw : ∀ c ∈ w, isSpace c = false) (u : Text)
    (hc : isSpace c = true) : words (w ++ c :: u) = w :: words u := by
  rw [words_append_space w u hc, words_of_no_space hne hw, List.singleton_append]

/-- White space in front does not matter. -/
theorem words_dropWhile (t : Text) : words (t.dropWhile isSpace) = words t := by
  induction t with
  | nil => rfl
  | cons c t ih =>
    by_cases hc : isSpace c = true
    · rw [List.dropWhile_cons_of_pos hc, ih, words_space t hc]
    · rw [List.dropWhile_cons_of_neg hc]

/-- The first word of a text that does not begin with white space, and the rest. -/
theorem words_cons (hc : isSpace c = false) (t : Text) :
    words (c :: t) = (c :: t).takeWhile (!isSpace ·) ::
      words ((c :: t).dropWhile (!isSpace ·)) := by
  have hsplit := List.takeWhile_append_dropWhile (p := (!isSpace ·)) (l := c :: t)
  have hne : (c :: t).takeWhile (!isSpace ·) ≠ [] := by simp [hc]
  have hw : ∀ d ∈ (c :: t).takeWhile (!isSpace ·), isSpace d = false := by
    intro d hd
    simpa using List.mem_takeWhile_imp hd
  generalize (c :: t).takeWhile (!isSpace ·) = w at hsplit hne hw ⊢
  cases hr : (c :: t).dropWhile (!isSpace ·) with
  | nil =>
    rw [hr, List.append_nil] at hsplit
    rw [← hsplit, words_of_no_space hne hw, words_nil]
  | cons d r =>
    have hd : isSpace d = true := by
      have hhead := List.head?_dropWhile_not (!isSpace ·) (c :: t)
      simpa [hr] using hhead
    rw [hr] at hsplit
    rw [← hsplit, words_word hne hw r hd, words_space r hd]

theorem words_eq_nil_iff : words t = [] ↔ t.dropWhile isSpace = [] := by
  rw [← words_dropWhile]
  cases h : t.dropWhile isSpace with
  | nil => simp
  | cons c r =>
    have hc : isSpace c = false := by
      have hhead := List.head?_dropWhile_not isSpace t
      simpa [h] using hhead
    simp [words_cons hc]

/-- A word is a part of its text. -/
theorem length_of_mem_words : ∀ {t : Text}, w ∈ words t → w.length ≤ t.length := by
  intro t
  induction hn : t.length using Nat.strong_induction_on generalizing t with
  | _ n ih =>
    intro hw
    cases t with
    | nil => simp at hw
    | cons c t =>
      rw [List.length_cons] at hn
      by_cases hc : isSpace c = true
      · rw [words_space t hc] at hw
        have hle := ih t.length (by omega) rfl hw
        omega
      · rw [words_cons (Bool.eq_false_iff.mpr hc), List.mem_cons] at hw
        rcases hw with rfl | hw
        · have hle := (List.takeWhile_prefix (!isSpace ·) (l := c :: t)).length_le
          rwa [List.length_cons, hn] at hle
        · rw [List.dropWhile_cons_of_pos (by simpa using hc)] at hw
          have hdrop := (List.dropWhile_suffix (!isSpace ·) (l := t)).length_le
          have hle := ih _ (by omega) rfl hw
          omega

end Words

section Decimal

def printNat (n : ℕ) : Text :=
  if n = 0 then [48] else ((Nat.digits 10 n).map fun d => UInt8.ofNat (48 + d)).reverse

def printInt (x : Int32) : Text :=
  if x.toInt < 0 then minus :: printNat x.toInt.natAbs else printNat x.toInt.natAbs

def readNat (t : Text) : ℕ := t.foldl (fun n c => 10 * n + (c.toNat - 48)) 0

def readSign : Text → Bool × Text
  | c :: t => if c = minus then (true, t) else if c = plus then (false, t) else (false, c :: t)
  | [] => (false, [])

/-- `atoi`: the int part of `strtol`, which stops at the bounds of a long. -/
def atoi (t : Text) : Int32 :=
  let (negative, t) := readSign (t.dropWhile isSpace)
  let n := readNat (t.takeWhile isDigit)
  Int32.ofInt (if negative then max (-n) (-2 ^ 63) else min n (2 ^ 63 - 1))

variable {n : ℕ} {c : UInt8}

theorem digit_toNat {d : ℕ} (hd : d < 10) : (UInt8.ofNat (48 + d)).toNat = 48 + d := by
  rw [UInt8.toNat_ofNat']
  omega

theorem isDigit_iff : isDigit c = true ↔ 48 ≤ c.toNat ∧ c.toNat ≤ 57 := by
  simp [isDigit, UInt8.le_iff_toNat_le]

theorem isSpace_of_isDigit (h : isDigit c = true) : isSpace c = false := by
  rw [isDigit_iff] at h
  have hc : c ≠ space := by
    rintro rfl
    exact absurd h (by decide)
  simp only [isSpace, decide_eq_false hc, Bool.false_or, Bool.and_eq_false_iff,
    decide_eq_false_iff_not, UInt8.le_iff_toNat_le]
  right
  have h13 : UInt8.toNat 13 = 13 := rfl
  omega

theorem printNat_digits (n : ℕ) : ∀ c ∈ printNat n, isDigit c = true := by
  intro c hc
  unfold printNat at hc
  split at hc
  · rw [List.mem_singleton] at hc
    subst hc
    rfl
  · simp only [List.mem_reverse, List.mem_map] at hc
    obtain ⟨d, hd, rfl⟩ := hc
    have hlt : d < 10 := Nat.digits_lt_base (by norm_num) hd
    rw [isDigit_iff, digit_toNat hlt]
    omega

theorem printNat_ne_nil (n : ℕ) : printNat n ≠ [] := by
  unfold printNat
  split
  · exact List.cons_ne_nil _ _
  · next hn => simp [Nat.digits_eq_nil_iff_eq_zero, hn]

theorem readNat_printNat (n : ℕ) : readNat (printNat n) = n := by
  unfold printNat
  split
  · next hn => rw [hn]; rfl
  · have hfold : ∀ L : List ℕ, (∀ d ∈ L, d < 10) →
        (L.map fun d => UInt8.ofNat (48 + d)).foldr (fun c n => 10 * n + (c.toNat - 48)) 0 =
          Nat.ofDigits 10 L := by
      intro L hL
      induction L with
      | nil => rfl
      | cons d L ih =>
        rw [List.map_cons, List.foldr_cons, ih fun e he => hL e (List.mem_cons_of_mem d he),
          digit_toNat (hL d List.mem_cons_self), Nat.ofDigits_cons]
        omega
    rw [readNat, List.foldl_reverse, hfold _ fun d hd => Nat.digits_lt_base (by norm_num) hd,
      Nat.ofDigits_digits]

/-- A printed number begins with a digit. -/
theorem printNat_cons (n : ℕ) : ∃ c t, printNat n = c :: t ∧ isDigit c = true := by
  obtain ⟨c, t, heq⟩ := List.exists_cons_of_ne_nil (printNat_ne_nil n)
  exact ⟨c, t, heq, printNat_digits n c (by rw [heq]; exact List.mem_cons_self)⟩

theorem readSign_digits (hc : isDigit c = true) (t : Text) : readSign (c :: t) = (false, c :: t) := by
  have hminus : c ≠ minus := by
    rintro rfl
    exact absurd hc (by decide)
  have hplus : c ≠ plus := by
    rintro rfl
    exact absurd hc (by decide)
  rw [readSign, if_neg hminus, if_neg hplus]

theorem takeWhile_printNat (n : ℕ) : (printNat n).takeWhile isDigit = printNat n :=
  List.takeWhile_eq_self_iff.mpr (printNat_digits n)

theorem printInt_ne_nil (x : Int32) : printInt x ≠ [] := by
  unfold printInt
  split
  · exact List.cons_ne_nil _ _
  · exact printNat_ne_nil _

theorem printInt_no_space (x : Int32) : ∀ c ∈ printInt x, isSpace c = false := by
  have hnat : ∀ c ∈ printNat x.toInt.natAbs, isSpace c = false := fun c hc =>
    isSpace_of_isDigit (printNat_digits _ c hc)
  intro c hc
  unfold printInt at hc
  split at hc
  · rcases List.mem_cons.mp hc with rfl | hc
    · rfl
    · exact hnat c hc
  · exact hnat c hc

/-- `atoi` undoes `%d`. -/
theorem atoi_printInt (x : Int32) : atoi (printInt x) = x := by
  have hlo := x.le_toInt
  have hhi := x.toInt_lt
  by_cases hneg : x.toInt < 0
  · have hvalue : max (-(x.toInt.natAbs : ℤ)) (-2 ^ 63) = x.toInt := by omega
    rw [atoi, printInt, if_pos hneg, List.dropWhile_cons_of_neg (by decide), readSign, if_pos rfl]
    simp only [takeWhile_printNat, readNat_printNat, if_true, hvalue, Int32.ofInt_toInt]
  · have hvalue : min (x.toInt.natAbs : ℤ) (2 ^ 63 - 1) = x.toInt := by omega
    obtain ⟨c, t, heq, hc⟩ := printNat_cons x.toInt.natAbs
    rw [atoi, printInt, if_neg hneg, heq,
      List.dropWhile_cons_of_neg (by simp [isSpace_of_isDigit hc]), readSign_digits hc, ← heq]
    simp only [takeWhile_printNat, readNat_printNat, Bool.false_eq_true, if_false, hvalue,
      Int32.ofInt_toInt]

end Decimal

end SystemSoftware.DecimalText
