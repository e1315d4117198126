import Mathlib.Data.List.Pairwise
import Mathlib.Tactic.Common

/-!
# Regions of an address space

Half-open ranges of addresses, and when two of them have no byte in common.
-/

namespace Aholyc.Lib

structure Region where
  start : Int
  size : Int
  deriving DecidableEq, Repr

namespace Region

def stop (region : Region) : Int := region.start + region.size

/-- Every byte of the region lies from `low` on and in front of `high`. -/
structure Within (low high : Int) (region : Region) : Prop where
  low_le : low ≤ region.start
  le_high : region.stop ≤ high

def Apart (one two : Region) : Prop := one.stop ≤ two.start ∨ two.stop ≤ one.start

variable {one two : Region}

theorem Apart.symm (apart : Apart one two) : Apart two one := Or.symm apart

theorem Within.mono {low low' high high' : Int} {region : Region} (within : Within low high region)
    (lower : low' ≤ low) (higher : high ≤ high') : Within low' high' region :=
  ⟨Int.le_trans lower within.low_le, Int.le_trans within.le_high higher⟩

/-- A part of a region is apart from what the region is apart from. -/
theorem Apart.part {part : Region} (apart : Apart one two) (within : Within one.start one.stop part) :
    Apart part two := by
  cases apart with
  | inl before => exact Or.inl (Int.le_trans within.le_high before)
  | inr behind => exact Or.inr (Int.le_trans behind within.low_le)

/-- Regions of one size on different multiples of a stride have no byte in
common. -/
theorem apart_of_ne {base stride : Int} {i j : Int} (differs : i ≠ j)
    (startOne : one.start = base + i * stride) (startTwo : two.start = base + j * stride)
    (sizeOne : one.size ≤ stride) (sizeTwo : two.size ≤ stride) (positive : 0 ≤ stride) :
    Apart one two := by
  unfold Apart stop
  rw [startOne, startTwo]
  cases Int.lt_or_gt_of_ne differs with
  | inl less =>
    have next : (i + 1) * stride ≤ j * stride := Int.mul_le_mul_of_nonneg_right less positive
    rw [Int.add_mul, Int.one_mul] at next
    left
    omega
  | inr greater =>
    have next : (j + 1) * stride ≤ i * stride := Int.mul_le_mul_of_nonneg_right greater positive
    rw [Int.add_mul, Int.one_mul] at next
    right
    omega

end Region

end Aholyc.Lib
