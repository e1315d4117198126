import Mathlib.Algebra.Order.Ring.Int

/-!
# Integers in a floating-point format

The integer of `p` significant bits nearest to an integer, the even one of two that are equally
near. The exponent is not bounded.
-/

namespace Aholyc.Lib

def lastPlace (p magnitude : Nat) : Nat := magnitude.log2 + 1 - p

def roundedQuotient (place magnitude : Nat) : Nat :=
  let quotient := magnitude / 2 ^ place
  let rest := magnitude % 2 ^ place
  if 2 ^ place < 2 * rest ∨ 2 ^ place = 2 * rest ∧ quotient % 2 = 1 then quotient + 1 else quotient

def nearestInt (p : Nat) (n : Int) : Int :=
  let place := lastPlace p n.natAbs
  n.sign * (roundedQuotient place n.natAbs * 2 ^ place)

theorem nearestInt_exact {p : Nat} {n : Int} (small : n.natAbs < 2 ^ p) : nearestInt p n = n := by
  by_cases zero : n = 0
  · subst zero
    unfold nearestInt
    rw [Int.sign_zero, zero_mul]
  have noPlace : lastPlace p n.natAbs = 0 := by
    have bits := (Nat.log2_lt (Int.natAbs_ne_zero.mpr zero)).mpr small
    unfold lastPlace
    omega
  have whole : roundedQuotient 0 n.natAbs = n.natAbs := by
    unfold roundedQuotient
    simp [Nat.mod_one]
  unfold nearestInt
  dsimp only
  rw [noPlace, whole, pow_zero, mul_one]
  exact Int.sign_mul_natAbs n

end Aholyc.Lib
