import Mathlib

/-!
# Signed arithmetic with undefined results

The operators of C++17 on signed integers of `n` bits. They compute with integers, and
where the result is not a number of the type, or the operation has no result, they are
undefined, which is `none` here. Where they are defined they are the operators of
two's complement arithmetic.

- `Fits`, `exact`: the numbers of the type.
- `add`, `sub`, `mul`, `neg`, `div`, `rem`, `shiftLeft`, `shiftRight`, `shiftRightLogical`.
- `add_eq` …: when each is defined, and what it is then.
-/

namespace Cact

namespace Signed

variable {n : Nat}

/-- `x` is a number of the type. -/
def Fits (n : Nat) (x : Int) : Prop := -2 ^ (n - 1) ≤ x ∧ x < 2 ^ (n - 1)

instance (n : Nat) (x : Int) : Decidable (Fits n x) := inferInstanceAs (Decidable (_ ∧ _))

/-- The number `x`, if the type has it. -/
def exact (n : Nat) (x : Int) : Option (BitVec n) :=
  if Fits n x then some (BitVec.ofInt n x) else none

/-! ## Operators -/

def add (a b : BitVec n) : Option (BitVec n) := exact n (a.toInt + b.toInt)
def sub (a b : BitVec n) : Option (BitVec n) := exact n (a.toInt - b.toInt)
def mul (a b : BitVec n) : Option (BitVec n) := exact n (a.toInt * b.toInt)
def neg (a : BitVec n) : Option (BitVec n) := exact n (-a.toInt)

/-- Division rounds towards zero. -/
def div (a b : BitVec n) : Option (BitVec n) :=
  if b = 0 then none else exact n (a.toInt.tdiv b.toInt)

/-- A remainder is defined where its quotient is. -/
def rem (a b : BitVec n) : Option (BitVec n) :=
  (div a b).map fun _ => BitVec.ofInt n (a.toInt.tmod b.toInt)

/-- The amount of a shift is less than the width. -/
def Amount (b : BitVec n) : Prop := 0 ≤ b.toInt ∧ b.toInt < n

instance (b : BitVec n) : Decidable (Amount b) := inferInstanceAs (Decidable (_ ∧ _))

/-- What is shifted to the left is not negative and loses no bit. -/
def Shiftable (a b : BitVec n) : Prop := Amount b ∧ 0 ≤ a.toInt ∧ a.toInt * 2 ^ b.toNat < 2 ^ n

instance (a b : BitVec n) : Decidable (Shiftable a b) := inferInstanceAs (Decidable (_ ∧ _))

def shiftLeft (a b : BitVec n) : Option (BitVec n) :=
  if Shiftable a b then some (BitVec.ofInt n (a.toInt * 2 ^ b.toNat)) else none

def shiftRight (a b : BitVec n) : Option (BitVec n) :=
  if Amount b then some (BitVec.ofInt n (a.toInt / 2 ^ b.toNat)) else none

/-- The shift of the unsigned number with the same bits. -/
def shiftRightLogical (a b : BitVec n) : Option (BitVec n) :=
  if Amount b then some (BitVec.ofNat n (a.toNat / 2 ^ b.toNat)) else none

/-! ## Two's complement -/

section Operators

variable {a b : BitVec n}

theorem add_eq : add a b = if Fits n (a.toInt + b.toInt) then some (a + b) else none := by
  simp only [add, exact, BitVec.ofInt_add, BitVec.ofInt_toInt]

theorem sub_eq : sub a b = if Fits n (a.toInt - b.toInt) then some (a - b) else none := by
  simp only [sub, exact, Int.sub_eq_add_neg, BitVec.ofInt_add, BitVec.ofInt_neg, BitVec.ofInt_toInt,
    BitVec.sub_eq_add_neg]

theorem mul_eq : mul a b = if Fits n (a.toInt * b.toInt) then some (a * b) else none := by
  simp only [mul, exact, BitVec.ofInt_mul, BitVec.ofInt_toInt]

theorem fits_toInt (a : BitVec n) : Fits n a.toInt := ⟨BitVec.le_toInt a, BitVec.toInt_lt⟩

theorem exact_toInt (a : BitVec n) : exact n a.toInt = some a := by
  rw [exact, if_pos (fits_toInt a), BitVec.ofInt_toInt]

/-- One more than the greatest number. -/
theorem exact_two_pow : exact n (2 ^ (n - 1)) = none :=
  if_neg fun h => absurd h.2 (lt_irrefl _)

/-- An amount is the number that its bits are without a sign. -/
theorem Amount.toNat (h : Amount b) : b.toInt = b.toNat ∧ b.toNat < n := by
  have hmsb : b.msb = false := by
    by_contra hb
    have hneg := BitVec.toInt_neg_of_msb_true (by simpa using hb)
    have hnonneg := h.1
    omega
  have heq := BitVec.toInt_eq_toNat_of_msb hmsb
  have hlt := h.2
  exact ⟨heq, by omega⟩

theorem Amount.mod (h : Amount b) : b.toNat % n = b.toNat := Nat.mod_eq_of_lt h.toNat.2

theorem shiftLeft_eq :
    shiftLeft a b = if Shiftable a b then some (a <<< (b.toNat % n)) else none := by
  unfold shiftLeft
  split
  next h =>
    rw [h.1.mod, BitVec.shiftLeft_eq_mul_twoPow, BitVec.ofInt_mul, BitVec.ofInt_toInt]
    congr 2
    apply BitVec.eq_of_toNat_eq
    rw [BitVec.toNat_ofInt, BitVec.toNat_twoPow]
    norm_cast
  next => rfl

theorem shiftRight_eq :
    shiftRight a b = if Amount b then some (a.sshiftRight (b.toNat % n)) else none := by
  unfold shiftRight
  split
  next h =>
    rw [h.mod, ← BitVec.ofInt_toInt (x := a.sshiftRight b.toNat), BitVec.toInt_sshiftRight,
      Int.shiftRight_eq_div_pow]
    norm_cast
  next => rfl

theorem shiftRightLogical_eq :
    shiftRightLogical a b = if Amount b then some (a >>> (b.toNat % n)) else none := by
  unfold shiftRightLogical
  split
  next h =>
    rw [h.mod]
    congr 1
    apply BitVec.eq_of_toNat_eq
    rw [BitVec.toNat_ushiftRight, Nat.shiftRight_eq_div_pow, BitVec.toNat_ofNat]
    exact Nat.mod_eq_of_lt (Nat.lt_of_le_of_lt (Nat.div_le_self _ _) a.isLt)
  next => rfl

section Positive

variable (hn : 0 < n)
include hn

/-- Only the least number has no negation. -/
theorem neg_eq : neg a = if a = BitVec.intMin n then none else some (-a) := by
  split
  next h => rw [neg, h, BitVec.toInt_intMin_of_pos hn, neg_neg, exact_two_pow]
  next h => rw [neg, ← BitVec.toInt_neg_of_ne_intMin h, exact_toInt]

/-- Only the least number cannot be divided, by -1. -/
theorem div_eq : div a b = if b = 0 ∨ a = BitVec.intMin n ∧ b = -1#n then none else
    some (a.sdiv b) := by
  by_cases hb : b = 0
  · rw [div, if_pos hb, if_pos (.inl hb)]
  · rw [div, if_neg hb]
    by_cases h : a = BitVec.intMin n ∧ b = -1#n
    · rw [if_pos (.inr h), h.1, h.2, BitVec.toInt_intMin_of_pos hn, BitVec.neg_one_eq_allOnes,
        BitVec.toInt_allOnes, if_pos hn, Int.tdiv_neg, Int.tdiv_one, neg_neg, exact_two_pow]
    · rw [if_neg (not_or.2 ⟨hb, h⟩), ← BitVec.toInt_sdiv_of_ne_or_ne a b (by tauto), exact_toInt]

theorem rem_eq : rem a b = if b = 0 ∨ a = BitVec.intMin n ∧ b = -1#n then none else
    some (a.srem b) := by
  rw [rem, div_eq hn, ← BitVec.toInt_srem, BitVec.ofInt_toInt]
  split
  next => rfl
  next => rfl

end Positive

end Operators

end Signed
end Cact
