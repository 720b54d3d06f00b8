import GuardedMachines.Misuse

/-!
Signed words of 32 bits. A number is read as a word in two's complement, so that
numbers from 2147483648 on do not keep their value. The least word is the only one
whose negation is no other word.
-/

namespace GuardedMachines.Diagram.Word

def magnitude (word : Int32) : Nat := word.toInt.natAbs

/-- Checked negation: rejects the least word. -/
def negateChecked (word : Int32) : Except Misuse Int32 :=
  if word = Int32.minValue then .error .negationOverflow else .ok (-word)

theorem toInt_ofNat_of_lt {n : Nat} (h : n < 2147483648) : (Int32.ofNat n).toInt = n :=
  Int32.toInt_ofNat_of_lt h

theorem ofNat_succ (n : Nat) : Int32.ofNat n + 1 = Int32.ofNat (n + 1) :=
  (Int32.ofNat_add n 1).symm

theorem magnitude_ne_zero {word : Int32} (h : word ≠ 0) : magnitude word ≠ 0 :=
  fun hzero => h (Int32.toInt_inj.mp (Int.natAbs_eq_zero.mp hzero))

theorem magnitude_ofNat {n : Nat} (h : n < 2147483648) : magnitude (.ofNat n) = n := by
  rw [magnitude, toInt_ofNat_of_lt h, Int.natAbs_natCast]

theorem ofNat_ne_minValue {n : Nat} (h : n < 2147483648) : Int32.ofNat n ≠ Int32.minValue := by
  intro heq
  have hvalue := toInt_ofNat_of_lt h
  rw [heq] at hvalue
  change (-2147483648 : Int) = n at hvalue
  omega

theorem ofNat_magnitude {word : Int32} (h : 0 ≤ word.toInt) :
    Int32.ofNat (magnitude word) = word := by
  have hlt := word.toInt_lt
  apply Int32.toInt_inj.mp
  rw [magnitude, toInt_ofNat_of_lt (by omega)]
  omega

theorem toInt_neg_of_ne {word : Int32} (h : word ≠ Int32.minValue) :
    (-word).toInt = -word.toInt := by
  have hne : word.toInt ≠ -2147483648 := fun heq => h (Int32.toInt_inj.mp heq)
  have hle := word.le_toInt
  have hlt := word.toInt_lt
  rw [Int32.toInt_neg]
  apply Int.bmod_eq_of_le <;> omega

theorem magnitude_neg (word : Int32) : magnitude (-word) = magnitude word := by
  by_cases hleast : word = Int32.minValue
  · rw [hleast]
    rfl
  · rw [magnitude, toInt_neg_of_ne hleast, Int.natAbs_neg]
    rfl

theorem neg_ofNat_magnitude {word : Int32} (h : word.toInt < 0) :
    -Int32.ofNat (magnitude word) = word := by
  by_cases hleast : word = Int32.minValue
  · rw [hleast]
    rfl
  · have hneg := toInt_neg_of_ne hleast
    rw [← magnitude_neg, ofNat_magnitude (by omega), Int32.neg_neg]

end GuardedMachines.Diagram.Word
