import Mathlib.Algebra.Order.Ring.Nat
import Mathlib.Tactic.Common
import Aholyc.Lib.Regions

/-!
# Alignment and offsets (lib/alloc/alloc.hc)

What the fixed-buffer allocators share: powers of two, the padding in front of
an aligned block and the offset of an address in a buffer. Addresses are U64
and sizes I64; what the source adds may wrap around.
-/

namespace Aholyc.Alloc

open Aholyc.Lib

def i64Max : Int := 9223372036854775807

def i64 (result : Int) : Int := Int.bmod result 18446744073709551616

def u64 (result : Int) : Int := result % 18446744073709551616

def allocAlignmentValid (alignment : Int) : Bool :=
  alignment > 0 && alignment.toNat &&& (alignment.toNat - 1) == 0

def lowBits (address alignment : Int) : Int :=
  (address.toNat &&& (alignment.toNat - 1) : Nat)

/-- The bytes from `address` to the next multiple of the alignment. -/
def padding (address alignment : Int) : Int :=
  if lowBits address alignment ≠ 0 then alignment - lowBits address alignment else 0

/-- The position of a new block in a buffer of which `used` bytes are taken. -/
def place (memory capacity used size alignment : Int) : Option Int :=
  let address := u64 (memory + used)
  if address < memory then none
  else if padding address alignment > i64 (capacity - used) ∨
      size > i64 (i64 (capacity - used) - padding address alignment) then none
  else some (i64 (used + padding address alignment))

def offsetOf (memory address alignment : Int) : Option Int :=
  if lowBits address alignment ≠ 0 ∨ address < memory then none
  else if u64 (address - memory) > i64Max then none
  else some (u64 (address - memory))

abbrev Bytes := Int → UInt8

/-- A block that has been handed out: the bytes that its owner may use. -/
structure LiveBlock where
  region : Region
  alignment : Int
  deriving DecidableEq, Repr

/-! ## Words -/

theorem i64_eq {result : Int} (low : -9223372036854775808 ≤ result) (high : result ≤ i64Max) :
    i64 result = result := by
  unfold i64Max at high
  apply Int.bmod_eq_of_le <;> omega

theorem u64_eq {result : Int} (low : 0 ≤ result) (high : result < 18446744073709551616) :
    u64 result = result :=
  Int.emod_eq_of_lt low high

/-! ## Alignment -/

theorem allocAlignmentValid_iff {alignment : Int} :
    allocAlignmentValid alignment = true ↔ ∃ k : Nat, alignment = 2 ^ k := by
  unfold allocAlignmentValid
  rw [Bool.and_eq_true, decide_eq_true_eq, beq_iff_eq]
  constructor
  · rintro ⟨positive, power⟩
    have notZero : alignment.toNat ≠ 0 := by omega
    obtain ⟨k, isPower⟩ := (Nat.and_sub_one_eq_zero_iff_isPowerOfTwo notZero).mp power
    refine ⟨k, ?_⟩
    have same : (alignment.toNat : Int) = ((2 ^ k : Nat) : Int) := by rw [isPower]
    rw [Int.toNat_of_nonneg (by omega)] at same
    rw [same]
    norm_cast
  · rintro ⟨k, rfl⟩
    have isNat : ((2 : Int) ^ k).toNat = 2 ^ k := by
      rw [show (2 : Int) ^ k = ((2 ^ k : Nat) : Int) by norm_cast, Int.toNat_natCast]
    have positive : (0 : Int) < 2 ^ k := Int.pow_pos (by decide)
    refine ⟨positive, ?_⟩
    rw [isNat]
    exact (Nat.and_sub_one_eq_zero_iff_isPowerOfTwo (Nat.two_pow_pos k).ne').mpr ⟨k, rfl⟩

theorem allocAlignmentValid.positive {alignment : Int}
    (valid : allocAlignmentValid alignment = true) : 0 < alignment := by
  unfold allocAlignmentValid at valid
  rw [Bool.and_eq_true, decide_eq_true_eq] at valid
  exact valid.1

theorem lowBits_eq {address alignment : Int} (valid : allocAlignmentValid alignment = true)
    (positive : 0 ≤ address) : lowBits address alignment = address % alignment := by
  obtain ⟨k, rfl⟩ := allocAlignmentValid_iff.mp valid
  have isNat : ((2 : Int) ^ k).toNat = 2 ^ k := by
    rw [show (2 : Int) ^ k = ((2 ^ k : Nat) : Int) by norm_cast, Int.toNat_natCast]
  unfold lowBits
  rw [isNat, Nat.and_two_pow_sub_one_eq_mod, Int.natCast_mod, Int.toNat_of_nonneg positive]
  norm_cast

/-- A multiple of an alignment is one of each smaller alignment. -/
theorem aligned_of_le {address large small : Int} (validLarge : allocAlignmentValid large = true)
    (validSmall : allocAlignmentValid small = true) (le : small ≤ large)
    (aligned : address % large = 0) : address % small = 0 := by
  obtain ⟨k, rfl⟩ := allocAlignmentValid_iff.mp validLarge
  obtain ⟨j, rfl⟩ := allocAlignmentValid_iff.mp validSmall
  have exponents : j ≤ k := by
    by_contra greater
    have less := Int.pow_lt_pow_of_lt (show (1 : Int) < 2 by decide) (show k < j by omega)
    omega
  have divides : (2 : Int) ^ j ∣ 2 ^ k := pow_dvd_pow 2 exponents
  exact Int.emod_eq_zero_of_dvd (divides.trans (Int.dvd_of_emod_eq_zero aligned))

/-- The padding is the least that leads to a multiple of the alignment. -/
theorem padding_spec {address alignment : Int} (valid : allocAlignmentValid alignment = true)
    (positive : 0 ≤ address) :
    0 ≤ padding address alignment ∧ padding address alignment < alignment ∧
      (address + padding address alignment) % alignment = 0 ∧
      (padding address alignment = 0 ↔ address % alignment = 0) := by
  have isPositive := allocAlignmentValid.positive valid
  have nonneg := Int.emod_nonneg address (Int.ne_of_gt isPositive)
  have less := Int.emod_lt_of_pos address isPositive
  unfold padding
  rw [lowBits_eq valid positive]
  split
  next rest =>
    refine ⟨by omega, by omega, ?_, by omega⟩
    have whole : address + (alignment - address % alignment) =
        (address - address % alignment) + alignment := by omega
    rw [whole, Int.add_emod_right, Int.sub_emod, Int.emod_emod, Int.sub_self, Int.zero_emod]
  next rest =>
    refine ⟨Int.le_refl 0, isPositive, ?_, by omega⟩
    rw [Int.add_zero]
    omega

/-! ## Buffers -/

structure Buffer (memory capacity : Int) : Prop where
  positive : 0 ≤ memory
  sized : 0 ≤ capacity
  small : capacity ≤ i64Max
  inside : memory + capacity ≤ 18446744073709551616
  present : memory ≠ 0 ∨ capacity = 0

section

variable {memory capacity used size alignment : Int}

/-- What `place` finds: the first aligned position with enough room behind it. -/
theorem place_eq_some (buffer : Buffer memory capacity)
    (valid : allocAlignmentValid alignment = true)
    (low : 0 ≤ used) (high : used ≤ capacity) (notEmpty : 0 < size) {position : Int}
    (placed : place memory capacity used size alignment = some position) :
    used ≤ position ∧ position + size ≤ capacity ∧ (memory + position) % alignment = 0 ∧
      (position = used ↔ (memory + used) % alignment = 0) := by
  have start := buffer.positive
  have fits := buffer.small
  have top := buffer.inside
  unfold place at placed
  by_cases wraps : memory + used = 18446744073709551616
  · have noRoom : used = capacity := by omega
    have isZero : u64 (memory + used) = 0 := by
      rw [wraps]
      rfl
    rw [isZero] at placed
    unfold i64Max at fits
    rw [if_pos (by omega)] at placed
    cases placed
  · have address : u64 (memory + used) = memory + used := u64_eq (by omega) (by omega)
    obtain ⟨nonneg, _, aligned, isZero⟩ :=
      padding_spec valid (show 0 ≤ memory + used by omega)
    have rest : i64 (capacity - used) = capacity - used := by
      unfold i64Max at fits
      exact i64_eq (by omega) (by unfold i64Max; omega)
    dsimp only at placed
    rw [address, rest, if_neg (by omega)] at placed
    generalize padding (memory + used) alignment = gap at placed nonneg aligned isZero
    split at placed
    · cases placed
    next room =>
      have enough : gap ≤ capacity - used := by omega
      have left_ : i64 (capacity - used - gap) = capacity - used - gap := by
        apply i64_eq
        · omega
        · omega
      have isPosition : i64 (used + gap) = used + gap := by
        apply i64_eq
        · omega
        · omega
      rw [left_] at room
      rw [isPosition] at placed
      cases placed
      refine ⟨by omega, by omega, ?_, by omega⟩
      rw [← Int.add_assoc]
      exact aligned

theorem offsetOf_eq_some (start : 0 ≤ memory) {address position : Int}
    (valid : allocAlignmentValid alignment = true) (nonneg : 0 ≤ address)
    (isWord : address < 18446744073709551616)
    (found : offsetOf memory address alignment = some position) :
    address = memory + position ∧ 0 ≤ position ∧ position ≤ i64Max ∧
      address % alignment = 0 := by
  unfold offsetOf at found
  split at found
  · cases found
  next accepted =>
    have same : u64 (address - memory) = address - memory := u64_eq (by omega) (by omega)
    rw [same] at found
    split at found
    · cases found
    next small =>
      cases found
      rw [lowBits_eq valid nonneg] at accepted
      refine ⟨by omega, by omega, by omega, ?_⟩
      by_contra rest
      exact accepted (Or.inl rest)

theorem offsetOf_inside (start : 0 ≤ memory) {position : Int}
    (valid : allocAlignmentValid alignment = true) (nonneg : 0 ≤ position)
    (small : position ≤ i64Max) (isWord : memory + position < 18446744073709551616)
    (aligned : (memory + position) % alignment = 0) :
    offsetOf memory (memory + position) alignment = some position := by
  have offset : memory + position - memory = position := by omega
  have same : u64 (memory + position - memory) = position := by
    rw [offset]
    exact u64_eq nonneg (by omega)
  unfold offsetOf
  rw [lowBits_eq valid (by omega), same, if_neg (by omega), if_neg (by omega)]

end

end Aholyc.Alloc
