import Mathlib.Algebra.BigOperators.Group.Finset.Basic
import Mathlib.Logic.Function.Basic
import Aholyc.Lib.Nearest

/-!
# Bits in memory (runtime/rt.c and runtime/rt.js)

A bit field is a byte pointer and a signed bit offset. The C functions work on a flat memory of
64-bit addresses, the JavaScript functions on one buffer and on numbers that are exact up to 53
bits.
-/

namespace Aholyc.Bits

open Aholyc.Lib

abbrev Memory := BitVec 64 → BitVec 8

/-! ## rt.c -/

def hcBitp (p bit : BitVec 64) : BitVec 64 × BitVec 8 :=
  (p + bit.sshiftRight 3, (1#32 <<< (bit &&& 7).toNat).setWidth 8)

def truth (masked : Bool) : BitVec 64 := if masked then 1 else 0

def Bt (memory : Memory) (p bit : BitVec 64) : BitVec 64 :=
  let (b, m) := hcBitp p bit
  truth (memory b &&& m != 0)

/-- `Bts`, `Btr` and `Btc`: `change` makes the new byte of the old one and the mask. -/
def changeBit (change : BitVec 8 → BitVec 8 → BitVec 8) (memory : Memory) (p bit : BitVec 64) :
    BitVec 64 × Memory :=
  let (b, m) := hcBitp p bit
  let r := truth (memory b &&& m != 0)
  (r, Function.update memory b (change (memory b) m))

def Bts : Memory → BitVec 64 → BitVec 64 → BitVec 64 × Memory := changeBit fun b m => b ||| m

def Btr : Memory → BitVec 64 → BitVec 64 → BitVec 64 × Memory := changeBit fun b m => b &&& ~~~m

def Btc : Memory → BitVec 64 → BitVec 64 → BitVec 64 × Memory := changeBit fun b m => b ^^^ m

/-- `LBts`, `LBtr` and `LBtc`: `__atomic_fetch_...` yields the old byte. -/
def fetchBit (change : BitVec 8 → BitVec 8 → BitVec 8) (memory : Memory) (p bit : BitVec 64) :
    BitVec 64 × Memory :=
  let (b, m) := hcBitp p bit
  let (old, memory) := (memory b, Function.update memory b (change (memory b) m))
  (truth (old &&& m != 0), memory)

def LBts : Memory → BitVec 64 → BitVec 64 → BitVec 64 × Memory := fetchBit fun b m => b ||| m

def LBtr : Memory → BitVec 64 → BitVec 64 → BitVec 64 × Memory := fetchBit fun b m => b &&& ~~~m

def LBtc : Memory → BitVec 64 → BitVec 64 → BitVec 64 × Memory := fetchBit fun b m => b ^^^ m

def Bsf (v : BitVec 64) : BitVec 64 := if v ≠ 0 then v.ctz else -1

def Bsr (v : BitVec 64) : BitVec 64 := if v ≠ 0 then 63 - v.clz else -1

def BCnt (v : BitVec 64) : BitVec 64 := v.cpop

/-- The loop of `Bsf` where there are no builtins; `i` goes up to 64. -/
def bsfLoop (v : BitVec 64) : Nat → Nat → BitVec 64
  | 0, _ => -1
  | left + 1, i => if v >>> i &&& 1 ≠ 0 then BitVec.ofNat 64 i else bsfLoop v left (i + 1)

def bsrLoop (v : BitVec 64) : Nat → BitVec 64
  | 0 => -1
  | i + 1 => if v >>> i &&& 1 ≠ 0 then BitVec.ofNat 64 i else bsrLoop v i

def bCntLoop : Nat → BitVec 64 → BitVec 64 → BitVec 64
  | 0, _, n => n
  | left + 1, u, n => if u = 0 then n else bCntLoop left (u >>> 1) (n + (u &&& 1))

/-! ## rt.js -/

/-- The number that an integer becomes; numbers that are integers are `Int`. -/
def number (n : Int) : Int := nearestInt 53 n

def bufferSize : Nat := 64 <<< 20

abbrev Buffer := Fin bufferSize → BitVec 8

/-- `U8A[a]` as an operand of a bitwise operator; what is not there counts as zero. -/
def element (buffer : Buffer) (a : Int) : BitVec 32 :=
  if inside : 0 ≤ a ∧ a.toNat < bufferSize then (buffer ⟨a.toNat, inside.2⟩).setWidth 32 else 0

def setElement (buffer : Buffer) (a : Int) (v : BitVec 32) : Buffer :=
  fun i => if (i : Int) = a then v.setWidth 8 else buffer i

/-- `p + Math.floor (bit / 8)`; a division by eight is exact. -/
def hcBitA (p bit : Int) : Int := number (p + bit.fdiv 8)

/-- `1 << (((bit % 8) + 8) % 8)`; `%` goes towards zero. -/
def hcBitM (bit : Int) : BitVec 32 := 1#32 <<< ((bit.tmod 8 + 8).tmod 8).toNat

namespace Js

def truth (masked : Bool) : Int := if masked then 1 else 0

def Bt (buffer : Buffer) (p bit : Int) : Int :=
  truth (element buffer (hcBitA p bit) &&& hcBitM bit != 0)

def changeBit (change : BitVec 32 → BitVec 32 → BitVec 32) (buffer : Buffer) (p bit : Int) :
    Int × Buffer :=
  let a := hcBitA p bit
  let m := hcBitM bit
  let r := truth (element buffer a &&& m != 0)
  (r, setElement buffer a (change (element buffer a) m))

def Btc : Buffer → Int → Int → Int × Buffer := changeBit fun b m => b ^^^ m

def Btr : Buffer → Int → Int → Int × Buffer := changeBit fun b m => b &&& ~~~m

def Bts : Buffer → Int → Int → Int × Buffer := changeBit fun b m => b ||| m

def LBtc : Buffer → Int → Int → Int × Buffer := Btc

def LBtr : Buffer → Int → Int → Int × Buffer := Btr

def LBts : Buffer → Int → Int → Int × Buffer := Bts

def asUint64 (v : Int) : Nat := (v % 2 ^ 64).toNat

/-- `while (!(u & 1n)) { u >>= 1n; i++; }`; of 64 bits one is set. -/
def bsfLoop : Nat → Nat → Int → Int
  | 0, _, i => i
  | left + 1, u, i => if u % 2 = 0 then bsfLoop left (u / 2) (i + 1) else i

def Bsf (v : Int) : Int :=
  let u := asUint64 v
  if u = 0 then -1 else bsfLoop 64 u 0

def bsrLoop : Nat → Nat → Int → Int
  | 0, _, i => i
  | left + 1, u, i => if u ≠ 0 then bsrLoop left (u / 2) (i + 1) else i

def Bsr (v : Int) : Int := bsrLoop 64 (asUint64 v) (-1)

/-- `while (u) { n += Number (u & 1n); u >>= 1n; }`. -/
def bCntLoop : Nat → Nat → Int → Int
  | 0, _, n => n
  | left + 1, u, n => if u ≠ 0 then bCntLoop left (u / 2) (n + (u % 2 : Nat)) else n

def BCnt (v : Int) : Int := bCntLoop 64 (asUint64 v) 0

end Js

/-! ## Scans -/

open Finset in
def ones (left u : Nat) : Nat := ∑ i ∈ range left, (u.testBit i).toNat

def Lowest (u k : Nat) : Prop := u.testBit k = true ∧ ∀ j < k, u.testBit j = false

variable {u k left : Nat} {v : BitVec 64}

theorem Lowest.unique {k' : Nat} (lowest : Lowest u k) (lowest' : Lowest u k') : k = k' := by
  rcases Nat.lt_trichotomy k k' with below | same | above
  · have unset := lowest'.2 k below
    rw [lowest.1] at unset
    cases unset
  · exact same
  · have unset := lowest.2 k' above
    rw [lowest'.1] at unset
    cases unset

theorem ctz_lowest (some : v ≠ 0) : Lowest v.toNat v.ctz.toNat :=
  ⟨BitVec.getLsbD_true_ctz_of_ne_zero some, fun _ below => BitVec.getLsbD_false_of_lt_ctz below⟩

theorem half_lt (small : u < 2 ^ (left + 1)) : u / 2 < 2 ^ left := by
  rw [pow_succ] at small
  omega

theorem js_bsfLoop (i : Int) (some : u ≠ 0) (small : u < 2 ^ left) :
    ∃ k : Nat, Js.bsfLoop left u i = i + k ∧ Lowest u k := by
  induction left generalizing u i with
  | zero =>
    rw [pow_zero] at small
    omega
  | succ left ih =>
    unfold Js.bsfLoop
    by_cases even : u % 2 = 0
    · rw [if_pos even]
      obtain ⟨k, result, isSet, unset⟩ := ih (i + 1) (by omega) (half_lt small)
      refine ⟨k + 1, by rw [result]; omega, ?_, ?_⟩
      · rw [Nat.testBit_succ]
        exact isSet
      · intro j below
        cases j with
        | zero => rw [Nat.testBit_zero, even]; rfl
        | succ j =>
          rw [Nat.testBit_succ]
          exact unset j (by omega)
    · rw [if_neg even]
      refine ⟨0, (add_zero i).symm, ?_, fun j below => absurd below (Nat.not_lt_zero j)⟩
      rw [Nat.testBit_zero]
      exact decide_eq_true (by omega)

theorem js_bsrLoop (i : Int) (some : u ≠ 0) (small : u < 2 ^ left) :
    Js.bsrLoop left u i = i + (u.log2 + 1 : Nat) := by
  induction left generalizing u i with
  | zero =>
    rw [pow_zero] at small
    omega
  | succ left ih =>
    unfold Js.bsrLoop
    rw [if_pos some, Nat.log2_def]
    by_cases more : 2 ≤ u
    · rw [ih (i + 1) (by omega) (half_lt small), if_pos more]
      omega
    · have done : u / 2 = 0 := by omega
      rw [done, if_neg more]
      cases left <;> rfl

theorem ones_half (left u : Nat) : ones (left + 1) u = ones left (u / 2) + u % 2 := by
  unfold ones
  rw [Finset.sum_range_succ']
  simp only [Nat.testBit_succ, Nat.testBit_zero]
  congr 1
  rcases Nat.mod_two_eq_zero_or_one u with even | odd
  · rw [even]; rfl
  · rw [odd]; rfl

theorem ones_zero (left : Nat) : ones left 0 = 0 := by
  unfold ones
  simp

theorem js_bCntLoop (n : Int) (small : u < 2 ^ left) : Js.bCntLoop left u n = n + ones left u := by
  induction left generalizing u n with
  | zero => exact (add_zero n).symm
  | succ left ih =>
    unfold Js.bCntLoop
    by_cases some : u ≠ 0
    · rw [if_pos some, ih _ (half_lt small), ones_half]
      omega
    · have zero : u = 0 := not_not.mp some
      rw [if_neg some, zero, ones_zero]
      exact (add_zero n).symm

theorem cpop_ones (v : BitVec 64) : v.cpop.toNat = ones 64 v.toNat := by
  have counted : ∀ left, v.cpopNatRec left 0 = ones left v.toNat := by
    intro left
    induction left with
    | zero => rfl
    | succ left ih =>
      rw [BitVec.cpopNatRec_succ, BitVec.cpopNatRec_eq, ih]
      unfold ones
      rw [Finset.sum_range_succ]
      simp only [Nat.zero_add]
      rfl
  rw [BitVec.toNat_cpop, counted]

theorem clz_log2 (some : v ≠ 0) : v.toNat.log2 + v.clz.toNat = 63 := by
  have low := BitVec.two_pow_sub_clz_le_toNat_of_ne_zero (by decide) some
  have high := BitVec.toNat_lt_two_pow_sub_clz (x := v)
  have notZero : v.toNat ≠ 0 := by
    intro zero
    exact some (BitVec.eq_of_toNat_eq zero)
  have above := (Nat.le_log2 notZero).mpr low
  have below := (Nat.log2_lt notZero).mpr high
  omega

theorem asUint64_toInt (v : BitVec 64) : Js.asUint64 v.toInt = v.toNat := by
  have signed := BitVec.toInt_eq_toNat_cond v
  have small := v.isLt
  unfold Js.asUint64
  split at signed
  · omega
  · push_cast at signed
    omega

theorem toNat_eq_zero : v.toNat = 0 ↔ v = 0 :=
  ⟨fun zero => BitVec.eq_of_toNat_eq zero, fun zero => zero ▸ rfl⟩

theorem ctz_le (some : v ≠ 0) : v.ctz.toNat < 64 :=
  BitVec.lt_def.mp (BitVec.ctz_lt_iff_ne_zero.mpr some)

theorem toInt_small {w : BitVec 64} (small : w.toNat ≤ 64) : w.toInt = w.toNat := by
  rw [BitVec.toInt_eq_toNat_cond, if_pos (by omega)]

theorem js_Bsf (v : BitVec 64) : Js.Bsf v.toInt = (Bsf v).toInt := by
  unfold Js.Bsf Bsf
  rw [asUint64_toInt]
  by_cases zero : v = 0
  · subst zero
    rfl
  · have notZero : v.toNat ≠ 0 := fun isZero => zero (toNat_eq_zero.mp isZero)
    obtain ⟨k, result, lowest⟩ := js_bsfLoop 0 notZero v.isLt
    have below := ctz_le zero
    dsimp only
    rw [if_neg notZero, if_pos zero, result, lowest.unique (ctz_lowest zero),
      toInt_small (by omega), zero_add]

theorem js_Bsr (v : BitVec 64) : Js.Bsr v.toInt = (Bsr v).toInt := by
  unfold Js.Bsr Bsr
  rw [asUint64_toInt]
  by_cases zero : v = 0
  · subst zero
    rfl
  have notZero : v.toNat ≠ 0 := fun isZero => zero (toNat_eq_zero.mp isZero)
  have sum := clz_log2 zero
  have difference : (63 - v.clz).toNat = v.toNat.log2 := by
    have le : v.clz.toNat ≤ (63 : BitVec 64).toNat := by
      have value : (63 : BitVec 64).toNat = 63 := rfl
      omega
    rw [BitVec.toNat_sub_of_le le]
    have value : (63 : BitVec 64).toNat = 63 := rfl
    omega
  rw [js_bsrLoop _ notZero v.isLt, if_pos zero, toInt_small (by omega), difference]
  omega

theorem js_BCnt (v : BitVec 64) : Js.BCnt v.toInt = (BCnt v).toInt := by
  have small := BitVec.toNat_cpop_le v
  unfold Js.BCnt BCnt
  rw [asUint64_toInt, js_bCntLoop _ v.isLt, toInt_small small, cpop_ones, zero_add]

/-! ### The loops without builtins -/

theorem lowBit (v : BitVec 64) (i : Nat) : (v >>> i &&& 1 ≠ 0) ↔ v.getLsbD i = true := by
  have masked := BitVec.and_one_eq_setWidth_ofBool_getLsbD (x := v >>> i)
  rw [BitVec.getLsbD_ushiftRight, Nat.add_zero] at masked
  have one : (1 : BitVec 64) = 1#64 := rfl
  rw [one, masked]
  cases v.getLsbD i with
  | false => decide
  | true => decide

theorem bsfLoop_eq {i : Nat} (all : left + i = 64) (unset : ∀ j < i, v.getLsbD j = false) :
    bsfLoop v left i = Bsf v := by
  induction left generalizing i with
  | zero =>
    have zero : v = 0 := by
      apply BitVec.eq_of_getLsbD_eq
      intro j small
      rw [unset j (by omega)]
      exact (BitVec.getLsbD_zero).symm
    rw [zero]
    rfl
  | succ left ih =>
    unfold bsfLoop
    by_cases isSet : v.getLsbD i = true
    · have some : v ≠ 0 := by
        intro zero
        rw [zero, BitVec.ofNat_eq_ofNat, BitVec.getLsbD_zero] at isSet
        cases isSet
      have lowest : Lowest v.toNat i := ⟨isSet, unset⟩
      have same := lowest.unique (ctz_lowest some)
      rw [if_pos ((lowBit v i).mpr isSet), Bsf, if_pos some, same, BitVec.ofNat_toNat,
        BitVec.setWidth_eq]
    · rw [if_neg ((lowBit v i).not.mpr isSet)]
      apply ih (by omega)
      intro j below
      by_cases isLast : j = i
      · rw [isLast]
        exact Bool.eq_false_iff.mpr isSet
      · exact unset j (by omega)

theorem bsrLoop_eq {i : Nat} (le : i ≤ 64) (unset : ∀ j, i ≤ j → v.getLsbD j = false) :
    bsrLoop v i = Bsr v := by
  induction i with
  | zero =>
    have zero : v = 0 := by
      apply BitVec.eq_of_getLsbD_eq
      intro j _
      rw [unset j (Nat.zero_le j)]
      exact (BitVec.getLsbD_zero).symm
    rw [zero]
    rfl
  | succ i ih =>
    unfold bsrLoop
    by_cases isSet : v.getLsbD i = true
    · have some : v ≠ 0 := by
        intro zero
        rw [zero, BitVec.ofNat_eq_ofNat, BitVec.getLsbD_zero] at isSet
        cases isSet
      have notZero : v.toNat ≠ 0 := fun isZero => some (toNat_eq_zero.mp isZero)
      have low : 2 ^ i ≤ v.toNat := Nat.ge_two_pow_of_testBit isSet
      have high : v.toNat < 2 ^ (i + 1) := by
        apply Nat.lt_pow_two_of_testBit
        intro j above
        exact unset j (by omega)
      have bits : v.toNat.log2 = i := by
        have above := (Nat.le_log2 notZero).mpr low
        have below := (Nat.log2_lt notZero).mpr high
        omega
      have sum := clz_log2 some
      rw [if_pos ((lowBit v i).mpr isSet), Bsr, if_pos some]
      apply BitVec.eq_of_toNat_eq
      have value : (63 : BitVec 64).toNat = 63 := rfl
      rw [BitVec.toNat_sub_of_le (BitVec.le_def.mpr (by omega)), BitVec.toNat_ofNat]
      omega
    · rw [if_neg ((lowBit v i).not.mpr isSet)]
      apply ih (by omega)
      intro j above
      by_cases isLast : j = i
      · rw [isLast]
        exact Bool.eq_false_iff.mpr isSet
      · exact unset j (by omega)

theorem bCntLoop_eq {u : BitVec 64} (n : BitVec 64) (small : u.toNat < 2 ^ left) :
    bCntLoop left u n = n + BitVec.ofNat 64 (ones left u.toNat) := by
  induction left generalizing u n with
  | zero => exact (BitVec.add_zero n).symm
  | succ left ih =>
    unfold bCntLoop
    by_cases zero : u = 0
    · have none : u.toNat = 0 := toNat_eq_zero.mpr zero
      rw [if_pos zero, none, ones_zero]
      exact (BitVec.add_zero n).symm
    have half : (u >>> 1).toNat = u.toNat / 2 := by
      rw [BitVec.toNat_ushiftRight, Nat.shiftRight_eq_div_pow, pow_one]
    have low : u &&& 1 = BitVec.ofNat 64 (u.toNat % 2) := by
      apply BitVec.eq_of_toNat_eq
      have value : (u &&& 1).toNat = u.toNat % 2 := Nat.and_two_pow_sub_one_eq_mod u.toNat 1
      rw [value, BitVec.toNat_ofNat]
      omega
    rw [if_neg zero, ih _ (by rw [half]; exact half_lt small), half, ones_half, low,
      BitVec.ofNat_add, BitVec.add_assoc, BitVec.add_comm (BitVec.ofNat 64 (u.toNat % 2))]

theorem loops_eq (v : BitVec 64) :
    bsfLoop v 64 0 = Bsf v ∧ bsrLoop v 64 = Bsr v ∧ bCntLoop 64 v 0 = BCnt v := by
  refine ⟨bsfLoop_eq rfl fun j below => absurd below (Nat.not_lt_zero j), ?_, ?_⟩
  · apply bsrLoop_eq (Nat.le_refl 64)
    intro j above
    exact BitVec.getLsbD_of_ge v j above
  · rw [bCntLoop_eq 0 v.isLt, ← cpop_ones, BitVec.ofNat_toNat, BitVec.setWidth_eq]
    exact BitVec.zero_add _

/-! ## One bit of memory -/

def byteOf (p bit : BitVec 64) : BitVec 64 := p + BitVec.ofInt 64 (bit.toInt / 8)

def indexOf (bit : BitVec 64) : Nat := (bit.toInt % 8).toNat

theorem indexOf_lt (bit : BitVec 64) : indexOf bit < 8 := by
  unfold indexOf
  omega

/-- `old` is the bit that is addressed, which becomes `new`; no other bit changes. -/
structure Changes (new : Bool → Bool) (memory : Memory) (p bit old : BitVec 64) (after : Memory) :
    Prop where
  old : old = truth ((memory (byteOf p bit)).getLsbD (indexOf bit))
  bits : ∀ address i, i < 8 → (after address).getLsbD i =
    if address = byteOf p bit ∧ i = indexOf bit then new ((memory address).getLsbD i)
    else (memory address).getLsbD i

theorem sshiftRight_three (bit : BitVec 64) :
    bit.sshiftRight 3 = BitVec.ofInt 64 (bit.toInt / 8) := by
  have shifted : bit.toInt >>> (3 : Nat) = bit.toInt / 8 := by
    rw [Int.shiftRight_eq_div_pow]
    rfl
  rw [← shifted, ← BitVec.toInt_sshiftRight, BitVec.ofInt_toInt]

theorem and_seven (bit : BitVec 64) : (bit &&& 7).toNat = indexOf bit := by
  have low : (bit &&& 7).toNat = bit.toNat % 8 := Nat.and_two_pow_sub_one_eq_mod bit.toNat 3
  have signed := BitVec.toInt_eq_toNat_cond bit
  rw [low]
  unfold indexOf
  split at signed
  · omega
  · push_cast at signed
    omega

theorem mask_twoPow (small : k < 8) : (1#32 <<< k).setWidth 8 = BitVec.twoPow 8 k := by
  revert k
  decide

theorem hcBitp_eq (p bit : BitVec 64) :
    hcBitp p bit = (byteOf p bit, BitVec.twoPow 8 (indexOf bit)) := by
  unfold hcBitp byteOf
  rw [sshiftRight_three, and_seven, mask_twoPow (indexOf_lt bit)]

theorem masked_bit {w : Nat} (b : BitVec w) (small : k < w) :
    (b &&& BitVec.twoPow w k != 0) = b.getLsbD k := by
  rw [BitVec.and_twoPow]
  cases b.getLsbD k with
  | false => rfl
  | true =>
    rw [if_pos rfl, bne_iff_ne]
    intro zero
    have isSet := congrArg (BitVec.getLsbD · k) zero
    rw [BitVec.getLsbD_twoPow] at isSet
    simp [small] at isSet

def Bitwise (change : BitVec 8 → BitVec 8 → BitVec 8) (new : Bool → Bool) : Prop :=
  ∀ b k i, k < 8 → i < 8 → (change b (BitVec.twoPow 8 k)).getLsbD i =
    if i = k then new (b.getLsbD i) else b.getLsbD i

theorem or_bitwise : Bitwise (fun b m => b ||| m) fun _ => true := by
  intro b k i small _
  rw [BitVec.getLsbD_or, BitVec.getLsbD_twoPow]
  by_cases same : i = k
  · simp [same, small]
  · simp [same, Ne.symm same]

theorem and_bitwise : Bitwise (fun b m => b &&& ~~~m) fun _ => false := by
  intro b k i small small'
  rw [BitVec.getLsbD_and, BitVec.getLsbD_not, BitVec.getLsbD_twoPow]
  by_cases same : i = k
  · simp [same, small]
  · simp [same, Ne.symm same, small']

theorem xor_bitwise : Bitwise (fun b m => b ^^^ m) fun old => !old := by
  intro b k i small _
  rw [BitVec.getLsbD_xor, BitVec.getLsbD_twoPow]
  by_cases same : i = k
  · simp [same, small]
  · simp [same, Ne.symm same]

theorem Bt_changes (memory : Memory) (p bit : BitVec 64) :
    Changes id memory p bit (Bt memory p bit) memory where
  old := by
    unfold Bt
    rw [hcBitp_eq]
    exact congrArg truth (masked_bit _ (indexOf_lt bit))
  bits := by
    intro address i _
    exact (ite_self _).symm

theorem changeBit_changes {change : BitVec 8 → BitVec 8 → BitVec 8} {new : Bool → Bool}
    (bitwise : Bitwise change new) (memory : Memory) (p bit : BitVec 64) :
    Changes new memory p bit (changeBit change memory p bit).1 (changeBit change memory p bit).2 where
  old := by
    unfold changeBit
    rw [hcBitp_eq]
    exact congrArg truth (masked_bit _ (indexOf_lt bit))
  bits := by
    intro address i small
    unfold changeBit
    rw [hcBitp_eq]
    dsimp only
    by_cases same : address = byteOf p bit
    · subst same
      rw [Function.update_self, bitwise _ _ _ (indexOf_lt bit) small]
      simp only [true_and]
    · rw [Function.update_of_ne same, if_neg (fun both => same both.1)]

/-! ## The buffer -/

def view (memory : Memory) : Buffer := fun i => memory (BitVec.ofNat 64 i)

/-- A bit field that numbers hold exactly and whose byte is in the buffer. -/
structure InBuffer (p bit : BitVec 64) : Prop where
  exactBase : number p.toInt = p.toInt
  exactOffset : number bit.toInt = bit.toInt
  inside : 0 ≤ p.toInt + bit.toInt / 8 ∧ p.toInt + bit.toInt / 8 < bufferSize

variable {p bit : BitVec 64}

theorem InBuffer.address (inBuffer : InBuffer p bit) :
    hcBitA p.toInt bit.toInt = p.toInt + bit.toInt / 8 := by
  obtain ⟨low, high⟩ := inBuffer.inside
  have size : bufferSize = 67108864 := rfl
  unfold hcBitA
  rw [Int.fdiv_eq_ediv_of_nonneg _ (by decide)]
  apply nearestInt_exact
  omega

theorem InBuffer.byteOf (inBuffer : InBuffer p bit) :
    BitVec.ofNat 64 (p.toInt + bit.toInt / 8).toNat = byteOf p bit := by
  obtain ⟨low, _⟩ := inBuffer.inside
  have whole : p.toInt + bit.toInt / 8 = ((p.toInt + bit.toInt / 8).toNat : Int) := by omega
  unfold Bits.byteOf
  rw [← BitVec.ofInt_natCast, ← whole, BitVec.ofInt_add, BitVec.ofInt_toInt]

theorem hcBitM_eq (bit : BitVec 64) : hcBitM bit.toInt = BitVec.twoPow 32 (indexOf bit) := by
  have index : ((bit.toInt.tmod 8 + 8).tmod 8).toNat = indexOf bit := by
    have rest := Int.tmod_def bit.toInt 8
    have low := Int.lt_tmod_of_pos bit.toInt (by decide : (0 : Int) < 8)
    unfold indexOf
    rw [Int.tmod_eq_emod_of_nonneg (by omega)]
    omega
  have mask : ∀ k < 8, 1#32 <<< k = BitVec.twoPow 32 k := by decide
  unfold hcBitM
  rw [index, mask _ (indexOf_lt bit)]

theorem element_view (memory : Memory) {a : Int} (inside : 0 ≤ a ∧ a < bufferSize) :
    element (view memory) a = (memory (BitVec.ofNat 64 a.toNat)).setWidth 32 := by
  have within : 0 ≤ a ∧ a.toNat < bufferSize := by omega
  exact dif_pos within

theorem setElement_view (memory : Memory) {a : Int} (inside : 0 ≤ a ∧ a < bufferSize)
    (v : BitVec 32) :
    setElement (view memory) a v =
      view (Function.update memory (BitVec.ofNat 64 a.toNat) (v.setWidth 8)) := by
  funext i
  have size : bufferSize = 67108864 := rfl
  have small := i.isLt
  unfold setElement view
  by_cases same : (i : Int) = a
  · have isIndex : BitVec.ofNat 64 i = BitVec.ofNat 64 a.toNat := by
      congr 1
      omega
    rw [if_pos same, isIndex, Function.update_self]
  · have differs : BitVec.ofNat 64 i ≠ BitVec.ofNat 64 a.toNat := by
      intro equal
      have values := congrArg BitVec.toNat equal
      rw [BitVec.toNat_ofNat, BitVec.toNat_ofNat, Nat.mod_eq_of_lt (by omega),
        Nat.mod_eq_of_lt (by omega)] at values
      omega
    rw [if_neg same, Function.update_of_ne differs]

theorem js_truth (masked : Bool) : Js.truth masked = (truth masked).toInt := by
  cases masked <;> rfl

theorem masked_element (b : BitVec 8) (small : k < 8) :
    (b.setWidth 32 &&& BitVec.twoPow 32 k != 0) = (b &&& BitVec.twoPow 8 k != 0) := by
  rw [masked_bit _ (by omega), masked_bit _ small, BitVec.getLsbD_setWidth]
  simp [show k < 32 by omega]

theorem InBuffer.Bt (inBuffer : InBuffer p bit) (memory : Memory) :
    Js.Bt (view memory) p.toInt bit.toInt = (Bits.Bt memory p bit).toInt := by
  unfold Js.Bt Bits.Bt
  rw [hcBitp_eq, inBuffer.address, element_view memory inBuffer.inside, inBuffer.byteOf, hcBitM_eq,
    masked_element _ (indexOf_lt bit), js_truth]

/-- A change of 32 bits whose low ones are the change of a byte. -/
def Extends (change' : BitVec 32 → BitVec 32 → BitVec 32)
    (change : BitVec 8 → BitVec 8 → BitVec 8) : Prop :=
  ∀ b k, k < 8 → (change' (b.setWidth 32) (BitVec.twoPow 32 k)).setWidth 8 =
    change b (BitVec.twoPow 8 k)

theorem InBuffer.changeBit (inBuffer : InBuffer p bit)
    {change' : BitVec 32 → BitVec 32 → BitVec 32} {change : BitVec 8 → BitVec 8 → BitVec 8}
    (extends_ : Extends change' change) (memory : Memory) :
    Js.changeBit change' (view memory) p.toInt bit.toInt =
      ((changeBit change memory p bit).1.toInt, view (Bits.changeBit change memory p bit).2) := by
  unfold Js.changeBit Bits.changeBit
  rw [hcBitp_eq, inBuffer.address, hcBitM_eq]
  dsimp only
  rw [element_view memory inBuffer.inside, inBuffer.byteOf, masked_element _ (indexOf_lt bit), js_truth, setElement_view memory inBuffer.inside,
    extends_ _ _ (indexOf_lt bit), inBuffer.byteOf]

theorem twoPow_setWidth (small : k < 8) : (BitVec.twoPow 32 k).setWidth 8 = BitVec.twoPow 8 k := by
  revert k
  decide

theorem or_extends : Extends (fun b m => b ||| m) fun b m => b ||| m := by
  intro b k small
  rw [BitVec.setWidth_or, twoPow_setWidth small, BitVec.setWidth_setWidth_of_le _ (by decide),
    BitVec.setWidth_eq]

theorem and_extends : Extends (fun b m => b &&& ~~~m) fun b m => b &&& ~~~m := by
  intro b k small
  rw [BitVec.setWidth_and, BitVec.setWidth_not (by decide), twoPow_setWidth small,
    BitVec.setWidth_setWidth_of_le _ (by decide), BitVec.setWidth_eq]

theorem xor_extends : Extends (fun b m => b ^^^ m) fun b m => b ^^^ m := by
  intro b k small
  rw [BitVec.setWidth_xor, twoPow_setWidth small, BitVec.setWidth_setWidth_of_le _ (by decide),
    BitVec.setWidth_eq]

end Aholyc.Bits
