import Mathlib.Data.BitVec
import Mathlib.Tactic.Common
import Mathlib.Tactic.Ring
import Mathlib.Tactic.Positivity

/-!
# Rounding in two's complement

`x & -a` rounds down to a multiple of `a`, a power of two, also for a negative `x`. On
numbers that the word can hold, the sums and products of words are those of the integers.
-/

namespace Aholyc.Lib

def roundUp (n : Int) (k : Nat) : Int := (n + 2 ^ k - 1) / 2 ^ k * 2 ^ k

section

variable (n : Int) (k : Nat)

theorem roundUp_dvd : (2 ^ k : Int) ∣ roundUp n k := Int.dvd_mul_left _ _

theorem le_roundUp : n ≤ roundUp n k := by
  have pos : (0 : Int) < 2 ^ k := by positivity
  have split := Int.mul_ediv_add_emod (n + 2 ^ k - 1) (2 ^ k)
  have small := Int.emod_lt_of_pos (n + 2 ^ k - 1) pos
  unfold roundUp
  rw [Int.mul_comm] at split
  omega

end

def InRange (w : Nat) (n : Int) : Prop := -2 ^ (w - 1) ≤ n ∧ n < 2 ^ (w - 1)

section

variable {w : Nat} {x y : BitVec w} {n : Int}

theorem toInt_inRange (x : BitVec w) : InRange w x.toInt :=
  ⟨BitVec.le_toInt x, BitVec.toInt_lt⟩

theorem bmod_of_inRange (pos : 0 < w) (range : InRange w n) : n.bmod (2 ^ w) = n := by
  obtain ⟨lower, upper⟩ := range
  have double : (2 ^ w : Int) = 2 * 2 ^ (w - 1) := by
    rw [← pow_succ', Nat.sub_add_cancel pos]
  have cast : ((2 ^ w : Nat) : Int) = 2 ^ w := by
    push_cast
    rfl
  apply Int.bmod_eq_of_le
  · rw [cast]
    omega
  · rw [cast]
    omega

theorem toInt_add_of_inRange (pos : 0 < w) (range : InRange w (x.toInt + y.toInt)) :
    (x + y).toInt = x.toInt + y.toInt := by
  rw [BitVec.toInt_add, bmod_of_inRange pos range]

theorem toInt_ofInt_of_inRange (pos : 0 < w) (range : InRange w n) :
    (BitVec.ofInt w n).toInt = n := by
  rw [BitVec.toInt_ofInt, bmod_of_inRange pos range]

end

/-! ## Masks -/

section

variable {w k : Nat} (x : BitVec w)

theorem and_neg_eq (small : k < w) : x &&& -(1#w <<< k) = x >>> k <<< k := by
  ext i bound
  have below : (∃ j < i, (1#w <<< k).getLsbD j = true) ↔ k < i := by
    constructor
    · intro found
      obtain ⟨j, lt, on⟩ := found
      simp [BitVec.getLsbD_shiftLeft] at on
      omega
    · intro lt
      refine ⟨k, lt, ?_⟩
      simp [BitVec.getLsbD_shiftLeft]
      omega
  rw [BitVec.getElem_and, BitVec.getElem_neg]
  simp only [below, BitVec.getElem_shiftLeft, BitVec.getElem_one, BitVec.getElem_ushiftRight]
  by_cases lower : i < k
  · have notAbove : ¬k < i := by omega
    simp [lower, notAbove]
  · by_cases same : i = k
    · subst same
      simp [BitVec.getLsbD_eq_getElem, small]
    · have above : k < i := by omega
      have apart : ¬i - k = 0 := by omega
      have place : k + (i - k) = i := by omega
      simp [lower, above, apart, place, BitVec.getLsbD_eq_getElem, bound]

theorem toNat_shift : (x >>> k <<< k).toNat = x.toNat / 2 ^ k * 2 ^ k := by
  rw [BitVec.toNat_shiftLeft, BitVec.toNat_ushiftRight, Nat.shiftLeft_eq, Nat.shiftRight_eq_div_pow]
  apply Nat.mod_eq_of_lt
  exact lt_of_le_of_lt (Nat.div_mul_le_self _ _) x.isLt

theorem toInt_mask (small : k < w) : (x &&& -(1#w <<< k)).toInt = x.toInt / 2 ^ k * 2 ^ k := by
  have pos : 0 < 2 ^ k := Nat.two_pow_pos k
  have whole : 2 ^ w = 2 * (2 ^ (w - 1 - k) * 2 ^ k) := by
    rw [← pow_add, ← pow_succ']
    congr 1
    omega
  have down := Nat.div_mul_le_self x.toNat (2 ^ k)
  have half : 2 ^ (w - 1 - k) * 2 ^ k ≤ x.toNat →
      2 ^ (w - 1 - k) * 2 ^ k ≤ x.toNat / 2 ^ k * 2 ^ k := fun le =>
    Nat.mul_le_mul_right _ ((Nat.le_div_iff_mul_le pos).mpr le)
  rw [and_neg_eq x small, BitVec.toInt_eq_toNat_cond, BitVec.toInt_eq_toNat_cond,
    toNat_shift]
  by_cases low : 2 * x.toNat < 2 ^ w
  · rw [if_pos low, if_pos (by omega)]
    push_cast
    rfl
  rw [if_neg low, if_neg (by omega)]
  have shifted : ((x.toNat : Int) - (2 ^ w : Nat)) / 2 ^ k =
      (x.toNat : Int) / 2 ^ k - 2 * 2 ^ (w - 1 - k) := by
    have even : ((2 ^ w : Nat) : Int) = 2 * 2 ^ (w - 1 - k) * 2 ^ k := by
      rw [whole]
      push_cast
      ring
    rw [even, Int.sub_mul_ediv_right]
    positivity
  rw [shifted, Int.sub_mul, whole]
  push_cast
  ring

end

end Aholyc.Lib
