import Mathlib.Tactic.NormNum

/-!
The 64-bit calculator hw1.c: numbers as pairs of 32-bit words, added one bit at a
time. A `char` is a vector of 8 bits. The variable `result` of `add64` is not
initialized, so its contents are an argument here, and so is the value of
`g_overflow` on entry. Reading and printing the operands is left out.
-/
namespace SystemSoftware.Calculator64

structure Int64 where
  hp : BitVec 32
  lp : BitVec 32

def getBit (a : Int64) (ind : ℕ) : BitVec 8 :=
  if ind < 32 then ((a.lp &&& (1#32 <<< ind)) >>> ind).setWidth 8
  else ((a.hp &&& (1#32 <<< (ind - 32))) >>> (ind - 32)).setWidth 8

def setBit (a : Int64) (bit : BitVec 8) (i : ℕ) : Int64 :=
  let bit4 := bit.signExtend 32
  if i < 32 then { a with lp := (a.lp &&& ~~~(1#32 <<< i)) ||| (bit4 <<< i) }
  else
    let offset := i - 32
    { a with hp := (a.hp &&& ~~~(1#32 <<< offset)) ||| (bit4 <<< offset) }

def lnot (c : BitVec 8) : BitVec 8 := if c = 0 then 1 else 0

def addRound (x y : Int64) (i : ℕ) (s : Int64 × BitVec 8) : Int64 × BitVec 8 :=
  let carryBitIn := s.2
  let aBit := getBit x i
  let bBit := getBit y i
  let carryBitOut := (carryBitIn &&& (aBit ^^^ bBit)) ||| (aBit &&& bBit)
  let sumBit := (aBit ^^^ bBit) ^^^ carryBitIn
  (setBit s.1 sumBit i, carryBitOut)

def addRounds (x y result : Int64) : ℕ → Int64 × BitVec 8
  | 0 => (result, 0)
  | i + 1 => addRound x y i (addRounds x y result i)

/-- The sum, and `g_overflow` afterwards. -/
def add64 (result : Int64) (gOverflow : BitVec 8) (x y : Int64) : Int64 × BitVec 8 :=
  let signA := getBit x 63
  let signB := getBit y 63
  let result := (addRounds x y result 64).1
  let signC := getBit result 63
  if signA &&& signB &&& lnot signC ≠ 0 ∨ lnot signA &&& lnot signB &&& signC ≠ 0 then (result, 1)
  else (result, gOverflow)

def complement64 (result : Int64) (gOverflow : BitVec 8) (x : Int64) : Int64 × BitVec 8 :=
  add64 result gOverflow ⟨~~~x.hp, ~~~x.lp⟩ ⟨0, 1⟩

/-- `result₁` and `result₂` are what the variable of `add64` holds at the two calls. -/
def sub64 (result₁ result₂ : Int64) (gOverflow : BitVec 8) (x y : Int64) : Int64 × BitVec 8 :=
  let complementY := complement64 result₁ gOverflow y
  add64 result₂ complementY.2 x complementY.1

def Int64.bits (a : Int64) : BitVec 64 := a.hp ++ a.lp

def bitChar (b : Bool) : BitVec 8 := (BitVec.ofBool b).setWidth 8

section Chars

variable (a b : Bool)

@[simp] theorem bitChar_and : bitChar a &&& bitChar b = bitChar (a && b) := by
  cases a <;> cases b <;> rfl

@[simp] theorem bitChar_or : bitChar a ||| bitChar b = bitChar (a || b) := by
  cases a <;> cases b <;> rfl

@[simp] theorem bitChar_xor : bitChar a ^^^ bitChar b = bitChar (a ^^ b) := by
  cases a <;> cases b <;> rfl

@[simp] theorem lnot_bitChar : lnot (bitChar a) = bitChar (!a) := by
  cases a <;> rfl

@[simp] theorem bitChar_eq_zero : bitChar a = 0 ↔ a = false := by
  cases a <;> decide

end Chars

theorem word_bit (w : BitVec 32) {i : ℕ} (hi : i < 32) :
    ((w &&& (1#32 <<< i)) >>> i).setWidth 8 = bitChar (w.getLsbD i) := by
  apply BitVec.eq_of_getLsbD_eq
  intro j hj
  by_cases hj0 : j = 0
  · subst hj0
    simp [bitChar, hi]
  · simp [bitChar, hj0, BitVec.getLsbD_one]

theorem getBit_eq (a : Int64) {i : ℕ} (hi : i < 64) : getBit a i = bitChar (a.bits.getLsbD i) := by
  rw [Int64.bits, BitVec.getLsbD_append, getBit]
  split
  · next hlt => exact word_bit _ hlt
  · next hge => exact word_bit _ (by omega)

theorem word_setBit (w : BitVec 32) (b : Bool) {i j : ℕ} (hi : i < 32) (hj : j < 32) :
    ((w &&& ~~~(1#32 <<< i)) ||| ((bitChar b).signExtend 32 <<< i)).getLsbD j =
      if j = i then b else w.getLsbD j := by
  have hbit : (bitChar b).signExtend 32 = (BitVec.ofBool b).setWidth 32 := by
    cases b <;> rfl
  rw [hbit]
  rcases Nat.lt_trichotomy j i with hlt | rfl | hgt
  · simp [hj, hlt, Nat.ne_of_lt hlt]
  · simp [hj]
  · have hsub : j - i ≠ 0 := by omega
    simp [hj, Nat.ne_of_gt hgt, hsub, show ¬j < i by omega]

theorem setBit_bits (a : Int64) (b : Bool) {i j : ℕ} (hi : i < 64) (hj : j < 64) :
    (setBit a (bitChar b) i).bits.getLsbD j = if j = i then b else a.bits.getLsbD j := by
  simp only [Int64.bits, BitVec.getLsbD_append, setBit]
  by_cases hi' : i < 32
  · rw [if_pos hi']
    by_cases hj' : j < 32
    · simp only [if_pos hj', word_setBit a.lp b hi' hj']
    · simp only [if_neg hj', if_neg (show j ≠ i by omega)]
  · rw [if_neg hi']
    by_cases hj' : j < 32
    · simp only [if_pos hj', if_neg (show j ≠ i by omega)]
    · simp only [if_neg hj', word_setBit a.hp b (show i - 32 < 32 by omega)
        (show j - 32 < 32 by omega), show j - 32 = i - 32 ↔ j = i by omega]

/-- After `i` rounds the carry is that of the low `i` bits, which are in place. -/
theorem addRounds_spec (x y result : Int64) {i : ℕ} (hi : i ≤ 64) :
    (addRounds x y result i).2 = bitChar (BitVec.carry i x.bits y.bits false) ∧
      ∀ j < i, (addRounds x y result i).1.bits.getLsbD j = (x.bits + y.bits).getLsbD j := by
  induction i with
  | zero => exact ⟨by rw [BitVec.carry_zero]; rfl, fun j hj => absurd hj (Nat.not_lt_zero j)⟩
  | succ i ih =>
    obtain ⟨hcarry, hbits⟩ := ih (by omega)
    have hlt : i < 64 := by omega
    rw [addRounds, addRound]
    simp only [hcarry, getBit_eq x hlt, getBit_eq y hlt, bitChar_and, bitChar_or, bitChar_xor]
    constructor
    · rw [BitVec.carry_succ]
      congr 1
      cases x.bits.getLsbD i <;> cases y.bits.getLsbD i <;>
        cases BitVec.carry i x.bits y.bits false <;> rfl
    · intro j hj
      rw [setBit_bits _ _ hlt (by omega)]
      split
      · next hji => rw [hji, BitVec.getLsbD_add hlt, Bool.xor_assoc]
      · next hji => exact hbits j (by omega)

/-- The value returned does not depend on what `result` held before. -/
theorem addRounds_bits (x y result : Int64) :
    (addRounds x y result 64).1.bits = x.bits + y.bits :=
  BitVec.eq_of_getLsbD_eq (addRounds_spec x y result le_rfl).2

theorem add64_spec (result : Int64) (gOverflow : BitVec 8) (x y : Int64) :
    (add64 result gOverflow x y).1.bits = x.bits + y.bits ∧
      (add64 result gOverflow x y).2 =
        if BitVec.saddOverflow x.bits y.bits then 1 else gOverflow := by
  have hmsb : ∀ a : Int64, getBit a 63 = bitChar a.bits.msb := fun a => by
    rw [getBit_eq a (by norm_num), BitVec.msb_eq_getLsbD_last]
  have hsum := addRounds_bits x y result
  rw [add64]
  simp only [hmsb, hsum, lnot_bitChar, bitChar_and, ne_eq, bitChar_eq_zero, BitVec.saddOverflow_eq]
  constructor
  · split <;> exact hsum
  · cases x.bits.msb <;> cases y.bits.msb <;> cases (x.bits + y.bits).msb <;> rfl

section Signed

variable (x : BitVec 64)

theorem toInt_bounds : -2 ^ 63 ≤ x.toInt ∧ x.toInt ≤ 2 ^ 63 - 1 :=
  ⟨BitVec.le_toInt x, BitVec.toInt_le⟩

theorem eq_intMin_iff : x = BitVec.intMin 64 ↔ x.toInt = -2 ^ 63 := by
  have hmin : (BitVec.intMin 64).toInt = -2 ^ 63 := by decide
  rw [← BitVec.toInt_inj, hmin]

/-- Adding one to the complement overflows for the least number only. -/
theorem saddOverflow_not_one : BitVec.saddOverflow (~~~x) 1 = true ↔ x = BitVec.intMin 64 := by
  have hnot : (~~~x).toInt = -1 - x.toInt := by
    have hlt := x.isLt
    rw [BitVec.toInt_eq_toNat_cond, BitVec.toInt_eq_toNat_cond, BitVec.toNat_not]
    split <;> split <;> omega
  have hone : (1 : BitVec 64).toInt = 1 := by decide
  have hx := toInt_bounds x
  rw [eq_intMin_iff, BitVec.saddOverflow, hnot, hone, Bool.or_eq_true, decide_eq_true_iff,
    decide_eq_true_iff]
  omega

end Signed

theorem complement64_spec (result : Int64) (gOverflow : BitVec 8) (x : Int64) :
    (complement64 result gOverflow x).1.bits = -x.bits ∧
      (complement64 result gOverflow x).2 =
        if x.bits = BitVec.intMin 64 then 1 else gOverflow := by
  have hnot : (Int64.mk (~~~x.hp) (~~~x.lp)).bits = ~~~x.bits := BitVec.not_append.symm
  have hone : (Int64.mk 0 1).bits = 1 := rfl
  obtain ⟨hbits, hflag⟩ := add64_spec result gOverflow ⟨~~~x.hp, ~~~x.lp⟩ ⟨0, 1⟩
  rw [hnot, hone] at hbits hflag
  simp only [saddOverflow_not_one] at hflag
  exact ⟨hbits.trans (BitVec.neg_eq_not_add x.bits).symm, hflag⟩

/-- The difference comes out right whatever the operands; the flag is raised by either of
the two additions. -/
theorem sub64_spec (result₁ result₂ : Int64) (gOverflow : BitVec 8) (x y : Int64) :
    (sub64 result₁ result₂ gOverflow x y).1.bits = x.bits - y.bits ∧
      (sub64 result₁ result₂ gOverflow x y).2 =
        if y.bits = BitVec.intMin 64 ∨ BitVec.saddOverflow x.bits (-y.bits) then 1
        else gOverflow := by
  obtain ⟨hneg, hflag⟩ := complement64_spec result₁ gOverflow y
  obtain ⟨hsum, hover⟩ := add64_spec result₂ (complement64 result₁ gOverflow y).2 x
    (complement64 result₁ gOverflow y).1
  rw [hneg] at hsum hover
  rw [sub64]
  refine ⟨hsum.trans (BitVec.sub_eq_add_neg ..).symm, hover.trans ?_⟩
  rw [hflag]
  by_cases hmin : y.bits = BitVec.intMin 64
  · simp [hmin]
  · simp [hmin]

/-- What the caller of a subtraction expects of the value and of `g_overflow`. -/
structure Subtracted (x y : Int64) (result : Int64 × BitVec 8) : Prop where
  difference : result.1.bits = x.bits - y.bits
  overflow : result.2 = 1 ↔
    ¬(-2 ^ 63 ≤ x.bits.toInt - y.bits.toInt ∧ x.bits.toInt - y.bits.toInt ≤ 2 ^ 63 - 1)

/-- Only the least number taken from a negative one raises the flag wrongly. -/
theorem subtracted_iff (result₁ result₂ x y : Int64) :
    Subtracted x y (sub64 result₁ result₂ 0 x y) ↔
      ¬(y.bits.toInt = -2 ^ 63 ∧ x.bits.toInt < 0) := by
  obtain ⟨hdiff, hflag⟩ := sub64_spec result₁ result₂ 0 x y
  have hx := toInt_bounds x.bits
  have hy := toInt_bounds y.bits
  have hone : (sub64 result₁ result₂ 0 x y).2 = 1 ↔
      y.bits = BitVec.intMin 64 ∨ BitVec.saddOverflow x.bits (-y.bits) = true := by
    rw [hflag]
    split
    · next h => exact ⟨fun _ => h, fun _ => rfl⟩
    · next h => exact ⟨fun h₀ => absurd h₀ (by decide), fun h₁ => absurd h₁ h⟩
  have hneg : (-y.bits).toInt =
      if y.bits.toInt = -2 ^ 63 then y.bits.toInt else -y.bits.toInt := by
    simp only [BitVec.toInt_neg_eq_ite, eq_intMin_iff]
  rw [BitVec.saddOverflow, hneg, eq_intMin_iff, Bool.or_eq_true, decide_eq_true_iff,
    decide_eq_true_iff] at hone
  constructor
  · rintro h ⟨hmin, hx₀⟩
    have hover := h.overflow.mp (hone.mpr (Or.inl hmin))
    omega
  · intro h
    refine ⟨hdiff, hone.trans ?_⟩
    split <;> omega

/-- In -1 less the least number the complement of the latter raises the flag. -/
theorem subtracted_least : ¬Subtracted ⟨0xffffffff, 0xffffffff⟩ ⟨0x80000000, 0⟩
    (sub64 ⟨0, 0⟩ ⟨0, 0⟩ 0 ⟨0xffffffff, 0xffffffff⟩ ⟨0x80000000, 0⟩) := by
  intro h
  have hflag := (sub64_spec ⟨0, 0⟩ ⟨0, 0⟩ 0 ⟨0xffffffff, 0xffffffff⟩ ⟨0x80000000, 0⟩).2
  rw [if_pos (Or.inl (by decide))] at hflag
  exact h.overflow.mp hflag (by decide)

end SystemSoftware.Calculator64
