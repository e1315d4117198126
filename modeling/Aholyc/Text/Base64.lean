import Aholyc.Alloc.Alloc
import Aholyc.Lib.Writer

/-!
# Base64 (lib/text/base64.hc)

Encoding and decoding are inverse to each other: what is decoded is exactly
what the encoding of some bytes is.
-/

namespace Aholyc.Base64

open Aholyc.Lib
open Aholyc.Alloc (i64Max i64 i64_eq)

/-- The sizes are computed in I64, where a sum or a product may wrap around. -/
def base64EncodedLength (length : Int) : Int :=
  if length < 0 ∨ length > i64Max - 2 then -1
  else if i64 (length + 2) / 3 > i64Max / 4 then -1
  else i64 (i64 (length + 2) / 3 * 4)

/-- `ABCDEFGHIJKLMNOPQRSTUVWXYZabcdefghijklmnopqrstuvwxyz0123456789+/` -/
def alphabet : List UInt8 :=
  [0x41, 0x42, 0x43, 0x44, 0x45, 0x46, 0x47, 0x48, 0x49, 0x4A, 0x4B, 0x4C, 0x4D, 0x4E, 0x4F, 0x50,
   0x51, 0x52, 0x53, 0x54, 0x55, 0x56, 0x57, 0x58, 0x59, 0x5A, 0x61, 0x62, 0x63, 0x64, 0x65, 0x66,
   0x67, 0x68, 0x69, 0x6A, 0x6B, 0x6C, 0x6D, 0x6E, 0x6F, 0x70, 0x71, 0x72, 0x73, 0x74, 0x75, 0x76,
   0x77, 0x78, 0x79, 0x7A, 0x30, 0x31, 0x32, 0x33, 0x34, 0x35, 0x36, 0x37, 0x38, 0x39, 0x2B, 0x2F]

def letter (value : Nat) : UInt8 := alphabet.getD (value &&& 63) 0

/-- The four characters that a round of the loop writes; `=` is 0x3D. -/
def quad (remaining value : Nat) : List UInt8 :=
  [letter (value >>> 18), letter (value >>> 12),
    if remaining > 1 then letter (value >>> 6) else 0x3D,
    if remaining > 2 then letter value else 0x3D]

def encodeLoop : List UInt8 → Writer UInt8 → Option (Writer UInt8)
  | [], writer => some writer
  | [a], writer => writer.put (quad 1 (a.toNat <<< 16))
  | [a, b], writer => writer.put (quad 2 (a.toNat <<< 16 ||| b.toNat <<< 8))
  | a :: b :: c :: rest, writer =>
    (writer.put (quad 3 (a.toNat <<< 16 ||| b.toNat <<< 8 ||| c.toNat))).bind (encodeLoop rest)

/-- What a call returns, the length that it reports and the output behind it. -/
structure Coded where
  returned : Bool
  length : Option Int
  output : Option (List UInt8)
  deriving DecidableEq, Repr

/-- The `length` bytes at a pointer; `none` is a read outside. -/
def bytesAt (data : Option (List UInt8)) (length : Int) : Option (List UInt8) :=
  if length ≤ (data.getD []).length then some ((data.getD []).take length.toNat) else none

/-- A pointer that is `none` is NULL, a result that is `none` an access outside
of what the pointers point to. -/
def base64Encode (data : Option (List UInt8)) (length : Int) (output : Option (List UInt8))
    (capacity : Int) : Option Coded :=
  let needed := base64EncodedLength length
  if needed < 0 ∨ length ≠ 0 ∧ data = none ∨ capacity < 0 then some ⟨false, none, output⟩
  else
    match output with
    | none => some ⟨true, some needed, none⟩
    | some buffer =>
      if capacity ≤ needed then some ⟨false, some needed, some buffer⟩
      else
        (bytesAt data length).bind fun bytes =>
          ((encodeLoop bytes ⟨buffer, 0⟩).bind (Writer.put · [0])).map fun writer =>
            ⟨true, some needed, some writer.output⟩

def base64Value (character : UInt8) : Int :=
  if character ≥ 0x41 ∧ character ≤ 0x5A then character.toNat - 0x41
  else if character ≥ 0x61 ∧ character ≤ 0x7A then character.toNat - 0x61 + 26
  else if character ≥ 0x30 ∧ character ≤ 0x39 then character.toNat - 0x30 + 52
  else if character = 0x2B then 62
  else if character = 0x2F then 63
  else -1

/-- The bytes of four characters; `none` is the return of FALSE. `isLast` says
that no text follows. -/
def decodeQuad (isLast : Bool) (t0 t1 t2 t3 : UInt8) : Option (List UInt8) :=
  let a := base64Value t0
  let b := base64Value t1
  if a < 0 ∨ b < 0 then none
  else if t2 = 0x3D then
    if !isLast ∨ t3 ≠ 0x3D ∨ b.toNat &&& 15 ≠ 0 then none
    else some [UInt8.ofNat (a.toNat <<< 2 ||| b.toNat >>> 4)]
  else
    let c := base64Value t2
    if c < 0 then none
    else if t3 = 0x3D then
      if !isLast ∨ c.toNat &&& 3 ≠ 0 then none
      else some [UInt8.ofNat (a.toNat <<< 2 ||| b.toNat >>> 4),
        UInt8.ofNat (b.toNat <<< 4 ||| c.toNat >>> 2)]
    else
      let d := base64Value t3
      if d < 0 then none
      else some [UInt8.ofNat (a.toNat <<< 2 ||| b.toNat >>> 4),
        UInt8.ofNat (b.toNat <<< 4 ||| c.toNat >>> 2), UInt8.ofNat (c.toNat <<< 6 ||| d.toNat)]

/-- The loop of `Base64Decode`: what it returns and the writer. Without an
output nothing is written. -/
def decodeLoop : List UInt8 → Option (Writer UInt8) → Option (Bool × Option (Writer UInt8))
  | t0 :: t1 :: t2 :: t3 :: rest, writer =>
    match decodeQuad rest.isEmpty t0 t1 t2 t3 with
    | none => some (false, writer)
    | some bytes =>
      match writer with
      | none => decodeLoop rest none
      | some writer => (writer.put bytes).bind fun writer => decodeLoop rest (some writer)
  | _, writer => some (true, writer)

def padding (text : List UInt8) : Int :=
  (if text.getLast? = some 0x3D then 1 else 0) +
    if text.dropLast.getLast? = some 0x3D then 1 else 0

def decodeText (text : List UInt8) (output : Option (List UInt8)) (capacity : Int) : Option Coded :=
  let needed : Int := i64 (i64 ((text.length : Int) / 4 * 3) - padding text)
  match output with
  | none =>
    (decodeLoop text none).map fun result => ⟨result.1, some needed, none⟩
  | some buffer =>
    if capacity < needed then some ⟨false, some needed, some buffer⟩
    else
      (decodeLoop text (some ⟨buffer, 0⟩)).map fun result =>
        ⟨result.1, some needed, result.2.map Writer.output⟩

def base64Decode (text : Option (List UInt8)) (length : Int) (output : Option (List UInt8))
    (capacity : Int) : Option Coded :=
  if length < 0 ∨ length ≠ 0 ∧ text = none ∨ capacity < 0 ∨ length.toNat &&& 3 ≠ 0 then
    some ⟨false, none, output⟩
  else (bytesAt text length).bind fun text => decodeText text output capacity

/-! ## The purpose -/

def base64 : List UInt8 → List UInt8
  | [] => []
  | [a] => quad 1 (a.toNat * 65536)
  | [a, b] => quad 2 (a.toNat * 65536 + b.toNat * 256)
  | a :: b :: c :: rest => quad 3 (a.toNat * 65536 + b.toNat * 256 + c.toNat) ++ base64 rest

/-! ## Letters -/

theorem letter_mod (value : Nat) : letter value = alphabet.getD (value % 64) 0 := by
  unfold letter
  rw [Nat.and_two_pow_sub_one_eq_mod value 6]

theorem base64Value_letter (value : Nat) : base64Value (letter value) = (value % 64 : Nat) := by
  have all : ∀ n : Fin 64, base64Value (alphabet.getD n 0) = (n : Nat) := by decide +kernel
  rw [letter_mod]
  exact all ⟨value % 64, Nat.mod_lt value (by decide)⟩

theorem letter_ne (value : Nat) : letter value ≠ 0x3D := by
  intro same
  have isValue := base64Value_letter value
  rw [same] at isValue
  have isNone : base64Value 0x3D = -1 := by decide
  omega

theorem base64Value_cases (character : UInt8) :
    base64Value character < 0 ∨ ∃ value < 64, base64Value character = (value : Nat) ∧
      letter value = character := by
  have all : ∀ n : Fin 256, base64Value (UInt8.ofNat n) < 0 ∨
      (base64Value (UInt8.ofNat n) < 64 ∧ 0 ≤ base64Value (UInt8.ofNat n) ∧
        letter (base64Value (UInt8.ofNat n)).toNat = UInt8.ofNat n) := by decide +kernel
  have isByte := all ⟨character.toNat, character.toNat_lt⟩
  simp only [UInt8.ofNat_toNat] at isByte
  cases isByte with
  | inl invalid => exact Or.inl invalid
  | inr valid =>
    obtain ⟨less, nonneg, same⟩ := valid
    exact Or.inr ⟨(base64Value character).toNat, by omega, by omega, same⟩

/-! ## Four characters -/

theorem or_eq_add (high : Nat) {low bits : Nat} (less : low < 2 ^ bits) :
    high <<< bits ||| low = high * 2 ^ bits + low := by
  rw [← Nat.shiftLeft_add_eq_or_of_lt less, Nat.shiftLeft_eq]

theorem letter_congr {one two : Nat} (same : one % 64 = two % 64) : letter one = letter two := by
  rw [letter_mod, letter_mod, same]

section

variable {va vb vc vd : Nat}

theorem first_byte (lessA : va < 64) (lessB : vb < 64) :
    (UInt8.ofNat (va <<< 2 ||| vb >>> 4)).toNat = va * 4 + vb / 16 := by
  have low : vb >>> 4 < 2 ^ 2 := by
    rw [Nat.shiftRight_eq_div_pow]
    omega
  rw [or_eq_add va low, Nat.shiftRight_eq_div_pow, UInt8.toNat_ofNat']
  omega

theorem second_byte (lessC : vc < 64) :
    (UInt8.ofNat (vb <<< 4 ||| vc >>> 2)).toNat = (vb * 16 + vc / 4) % 256 := by
  have low : vc >>> 2 < 2 ^ 4 := by
    rw [Nat.shiftRight_eq_div_pow]
    omega
  rw [or_eq_add vb low, Nat.shiftRight_eq_div_pow, UInt8.toNat_ofNat']
  rfl

theorem third_byte (lessD : vd < 64) :
    (UInt8.ofNat (vc <<< 6 ||| vd)).toNat = (vc * 64 + vd) % 256 := by
  rw [or_eq_add vc (show vd < 2 ^ 6 by omega), UInt8.toNat_ofNat']
  rfl

/-- The letters of a number are those of its four digits. -/
theorem letters_eq (lessB : vb < 64) (lessC : vc < 64) (lessD : vd < 64)
    {value : Nat} (isValue : value = va * 262144 + vb * 4096 + vc * 64 + vd) :
    letter (value >>> 18) = letter va ∧ letter (value >>> 12) = letter vb ∧
      letter (value >>> 6) = letter vc ∧ letter value = letter vd := by
  simp only [Nat.shiftRight_eq_div_pow]
  refine ⟨letter_congr ?_, letter_congr ?_, letter_congr ?_, letter_congr ?_⟩ <;> omega

end

/-- Four characters decode to the bytes that they encode. -/
theorem decodeQuad_sound {isLast : Bool} {t0 t1 t2 t3 : UInt8} {bytes : List UInt8}
    (decoded : decodeQuad isLast t0 t1 t2 t3 = some bytes) :
    base64 bytes = [t0, t1, t2, t3] ∧
      (bytes.length = 3 ∨ isLast = true ∧ 0 < bytes.length ∧ bytes.length < 3) := by
  unfold decodeQuad at decoded
  dsimp only at decoded
  split at decoded
  · cases decoded
  next valid =>
    obtain ⟨va, lessA, isA, rfl⟩ := (base64Value_cases t0).resolve_left (by omega)
    obtain ⟨vb, lessB, isB, rfl⟩ := (base64Value_cases t1).resolve_left (by omega)
    rw [isA, isB] at decoded
    simp only [Int.toNat_natCast] at decoded
    split at decoded
    next isPad =>
      split at decoded
      · cases decoded
      next accepted =>
        cases decoded
        have spare : vb &&& 15 = 0 := by
          by_contra rest
          exact accepted (Or.inr (Or.inr rest))
        have isEnd : t3 = 0x3D := by
          by_contra other
          exact accepted (Or.inr (Or.inl other))
        have last : isLast = true := by
          by_contra other
          exact accepted (Or.inl (by simp [other]))
        rw [Nat.and_two_pow_sub_one_eq_mod vb 4] at spare
        have first := first_byte lessA lessB
        obtain ⟨one, two, _, _⟩ := letters_eq lessB (show 0 < 64 by decide) (show 0 < 64 by decide)
          (show (va * 4 + vb / 16) * 65536 = va * 262144 + vb * 4096 + 0 * 64 + 0 by omega)
        refine ⟨?_, Or.inr ⟨last, by simp, by simp⟩⟩
        rw [base64, first, quad, one, two, isPad, isEnd]
        rfl
    next notPad =>
      split at decoded
      · cases decoded
      next validC =>
        obtain ⟨vc, lessC, isC, rfl⟩ := (base64Value_cases t2).resolve_left (by omega)
        rw [isC] at decoded
        simp only [Int.toNat_natCast] at decoded
        split at decoded
        next isPad =>
          split at decoded
          · cases decoded
          next accepted =>
            cases decoded
            have spare : vc &&& 3 = 0 := by
              by_contra rest
              exact accepted (Or.inr rest)
            have last : isLast = true := by
              by_contra other
              exact accepted (Or.inl (by simp [other]))
            rw [Nat.and_two_pow_sub_one_eq_mod vc 2] at spare
            have first := first_byte lessA lessB
            have second := @second_byte vb vc lessC
            obtain ⟨one, two, three, _⟩ := letters_eq lessB lessC (show 0 < 64 by decide)
              (show (va * 4 + vb / 16) * 65536 + (vb * 16 + vc / 4) % 256 * 256 =
                va * 262144 + vb * 4096 + vc * 64 + 0 by omega)
            refine ⟨?_, Or.inr ⟨last, by simp, by simp⟩⟩
            rw [base64, first, second, quad, one, two, three, isPad]
            rfl
        next notPad' =>
          split at decoded
          · cases decoded
          next validD =>
            obtain ⟨vd, lessD, isD, rfl⟩ := (base64Value_cases t3).resolve_left (by omega)
            rw [isD] at decoded
            simp only [Int.toNat_natCast] at decoded
            cases decoded
            have first := first_byte lessA lessB
            have second := @second_byte vb vc lessC
            have third := @third_byte vc vd lessD
            obtain ⟨one, two, three, four⟩ := letters_eq lessB lessC lessD
              (show (va * 4 + vb / 16) * 65536 + (vb * 16 + vc / 4) % 256 * 256 +
                (vc * 64 + vd) % 256 = va * 262144 + vb * 4096 + vc * 64 + vd by omega)
            refine ⟨?_, Or.inl rfl⟩
            rw [base64, first, second, third, quad, one, two, three, four]
            rfl

theorem digits_eq (value : Nat) :
    base64Value (letter (value >>> 18)) = (value / 262144 % 64 : Nat) ∧
      base64Value (letter (value >>> 12)) = (value / 4096 % 64 : Nat) ∧
      base64Value (letter (value >>> 6)) = (value / 64 % 64 : Nat) ∧
      base64Value (letter value) = (value % 64 : Nat) := by
  have shift (bits : Nat) :
      base64Value (letter (value >>> bits)) = (value / 2 ^ bits % 64 : Nat) := by
    rw [base64Value_letter, Nat.shiftRight_eq_div_pow]
  exact ⟨shift 18, shift 12, shift 6, base64Value_letter value⟩

theorem byte_eq (byte : UInt8) {other : UInt8} (same : other.toNat = byte.toNat) : other = byte :=
  UInt8.toNat_inj.mp same

section

variable {a b c : UInt8} {t0 t1 t2 t3 : UInt8}

/-! What is decoded from four characters with values. -/

theorem decodeQuad_values (isLast : Bool) {va vb vc vd : Nat} (isA : base64Value t0 = va)
    (isB : base64Value t1 = vb) (isC : base64Value t2 = vc) (isD : base64Value t3 = vd)
    (notPad : t2 ≠ 0x3D) (notPad' : t3 ≠ 0x3D) : decodeQuad isLast t0 t1 t2 t3 =
      some [UInt8.ofNat (va <<< 2 ||| vb >>> 4), UInt8.ofNat (vb <<< 4 ||| vc >>> 2),
        UInt8.ofNat (vc <<< 6 ||| vd)] := by
  unfold decodeQuad
  dsimp only
  rw [isA, isB, isC, isD, if_neg (by omega), if_neg notPad, if_neg (by omega), if_neg notPad',
    if_neg (by omega)]
  rfl

theorem decodeQuad_pad {va vb vc : Nat} (isA : base64Value t0 = va)
    (isB : base64Value t1 = vb) (isC : base64Value t2 = vc) (notPad : t2 ≠ 0x3D)
    (spare : vc &&& 3 = 0) : decodeQuad true t0 t1 t2 0x3D =
      some [UInt8.ofNat (va <<< 2 ||| vb >>> 4), UInt8.ofNat (vb <<< 4 ||| vc >>> 2)] := by
  unfold decodeQuad
  dsimp only
  rw [isA, isB, isC, if_neg (by omega), if_neg notPad, if_neg (by omega), if_pos rfl, if_neg]
  · rfl
  · rintro (notLast | rest)
    · cases notLast
    · exact rest spare

theorem decodeQuad_pads {va vb : Nat} (isA : base64Value t0 = va)
    (isB : base64Value t1 = vb) (spare : vb &&& 15 = 0) : decodeQuad true t0 t1 0x3D 0x3D =
      some [UInt8.ofNat (va <<< 2 ||| vb >>> 4)] := by
  unfold decodeQuad
  dsimp only
  rw [isA, isB, if_neg (by omega), if_pos rfl, if_neg]
  · rfl
  · rintro (notLast | notPad | rest)
    · cases notLast
    · exact notPad rfl
    · exact rest spare

/-! The bytes whose quad is decoded. -/

theorem decodeQuad_three (isLast : Bool)
    (isQuad : quad 3 (a.toNat * 65536 + b.toNat * 256 + c.toNat) = [t0, t1, t2, t3]) :
    decodeQuad isLast t0 t1 t2 t3 = some [a, b, c] := by
  have lessA := a.toNat_lt
  have lessB := b.toNat_lt
  have lessC := c.toNat_lt
  generalize isValue : a.toNat * 65536 + b.toNat * 256 + c.toNat = value at isQuad
  simp only [quad, List.cons.injEq, and_true] at isQuad
  obtain ⟨rfl, rfl, isThird, isFourth⟩ := isQuad
  rw [if_pos (by decide)] at isThird isFourth
  obtain ⟨one, two, three, four⟩ := digits_eq value
  have notPad := letter_ne (value >>> 6)
  have notPad' := letter_ne value
  rw [isThird] at three notPad
  rw [isFourth] at four notPad'
  have first := @first_byte (value / 262144 % 64) (value / 4096 % 64) (by omega) (by omega)
  have second := @second_byte (value / 4096 % 64) (value / 64 % 64) (by omega)
  have third := @third_byte (value / 64 % 64) (value % 64) (by omega)
  rw [decodeQuad_values isLast one two three four notPad notPad',
    byte_eq a (first.trans (by omega)), byte_eq b (second.trans (by omega)),
    byte_eq c (third.trans (by omega))]

theorem decodeQuad_two (isQuad : quad 2 (a.toNat * 65536 + b.toNat * 256) = [t0, t1, t2, t3]) :
    decodeQuad true t0 t1 t2 t3 = some [a, b] := by
  have lessA := a.toNat_lt
  have lessB := b.toNat_lt
  generalize isValue : a.toNat * 65536 + b.toNat * 256 = value at isQuad
  simp only [quad, List.cons.injEq, and_true] at isQuad
  obtain ⟨rfl, rfl, isThird, isFourth⟩ := isQuad
  rw [if_pos (by decide)] at isThird
  rw [if_neg (by decide)] at isFourth
  obtain ⟨one, two, three, _⟩ := digits_eq value
  have notPad := letter_ne (value >>> 6)
  rw [isThird] at three notPad
  have first := @first_byte (value / 262144 % 64) (value / 4096 % 64) (by omega) (by omega)
  have second := @second_byte (value / 4096 % 64) (value / 64 % 64) (by omega)
  have spare : value / 64 % 64 &&& 3 = 0 := by
    rw [Nat.and_two_pow_sub_one_eq_mod _ 2]
    omega
  rw [← isFourth, decodeQuad_pad one two three notPad spare,
    byte_eq a (first.trans (by omega)), byte_eq b (second.trans (by omega))]

theorem decodeQuad_one (isQuad : quad 1 (a.toNat * 65536) = [t0, t1, t2, t3]) :
    decodeQuad true t0 t1 t2 t3 = some [a] := by
  have lessA := a.toNat_lt
  generalize isValue : a.toNat * 65536 = value at isQuad
  simp only [quad, List.cons.injEq, and_true] at isQuad
  obtain ⟨rfl, rfl, isThird, isFourth⟩ := isQuad
  rw [if_neg (by decide)] at isThird isFourth
  obtain ⟨one, two, _, _⟩ := digits_eq value
  have first := @first_byte (value / 262144 % 64) (value / 4096 % 64) (by omega) (by omega)
  have spare : value / 4096 % 64 &&& 15 = 0 := by
    rw [Nat.and_two_pow_sub_one_eq_mod _ 4]
    omega
  rw [← isThird, ← isFourth, decodeQuad_pads one two spare, byte_eq a (first.trans (by omega))]

end

/-! ## Lengths -/

theorem quad_length (remaining value : Nat) : (quad remaining value).length = 4 := rfl

theorem base64_length (data : List UInt8) : (base64 data).length = (data.length + 2) / 3 * 4 := by
  induction data using base64.induct with
  | case1 => rfl
  | case2 a => rw [base64, quad_length, List.length_singleton]
  | case3 a b => rw [base64, quad_length, List.length_cons, List.length_singleton]
  | case4 a b c rest ih =>
    rw [base64, List.length_append, quad_length, ih]
    simp only [List.length_cons]
    omega

/-- The size function is exact where it accepts a length. -/
theorem base64EncodedLength_eq {length : Nat}
    (accepted : ((length + 2) / 3 * 4 : Nat) ≤ i64Max) :
    base64EncodedLength length = ((length + 2) / 3 * 4 : Nat) := by
  unfold i64Max at accepted
  have isSum : i64 ((length : Int) + 2) = length + 2 := i64_eq (by omega) (by unfold i64Max; omega)
  have isProduct : i64 (((length : Int) + 2) / 3 * 4) = ((length : Int) + 2) / 3 * 4 :=
    i64_eq (by omega) (by unfold i64Max; omega)
  unfold base64EncodedLength
  rw [isSum, isProduct, if_neg (by unfold i64Max; omega), if_neg (by unfold i64Max; omega)]
  omega

theorem base64EncodedLength_none {length : Int}
    (refused : length < 0 ∨ i64Max < (length + 2) / 3 * 4) (isI64 : length ≤ i64Max) :
    base64EncodedLength length = -1 := by
  unfold i64Max at refused isI64
  unfold base64EncodedLength
  split
  · rfl
  next inside =>
    unfold i64Max at inside
    have isSum : i64 (length + 2) = length + 2 := i64_eq (by omega) (by unfold i64Max; omega)
    rw [isSum, if_pos (by unfold i64Max; omega)]

theorem padding_append (front : List UInt8) {rest : List UInt8} (two : 2 ≤ rest.length) :
    padding (front ++ rest) = padding rest := by
  have notNil : rest ≠ [] := List.ne_nil_of_length_pos (by omega)
  have notNil' : rest.dropLast ≠ [] := by
    apply List.ne_nil_of_length_pos
    rw [List.length_dropLast]
    omega
  unfold padding
  rw [List.getLast?_append_of_ne_nil _ notNil, List.dropLast_append_of_ne_nil notNil,
    List.getLast?_append_of_ne_nil _ notNil']

theorem padding_four (t0 t1 t2 t3 : UInt8) :
    padding [t0, t1, t2, t3] = (if t3 = 0x3D then 1 else 0) + if t2 = 0x3D then 1 else 0 := by
  simp [padding]

def neededFor (text : List UInt8) : Int := (text.length : Int) / 4 * 3 - padding text

theorem neededFor_cons (t0 t1 t2 t3 : UInt8) {rest : List UInt8} (notNil : rest ≠ [])
    (whole : rest.length % 4 = 0) :
    neededFor (t0 :: t1 :: t2 :: t3 :: rest) = 3 + neededFor rest := by
  have some' := List.length_pos_of_ne_nil notNil
  have same := @padding_append [t0, t1, t2, t3] rest (by omega)
  unfold neededFor
  rw [show t0 :: t1 :: t2 :: t3 :: rest = [t0, t1, t2, t3] ++ rest from rfl, same,
    List.length_append]
  have isFour : [t0, t1, t2, t3].length = 4 := rfl
  omega

variable {data text : List UInt8} {capacity : Int}

theorem base64_ne_nil (notNil : data ≠ []) : base64 data ≠ [] := by
  apply List.ne_nil_of_length_pos
  have some' := List.length_pos_of_ne_nil notNil
  rw [base64_length]
  omega

theorem neededFor_quad (remaining value : Nat) : neededFor (quad remaining value) =
    3 - ((if remaining > 2 then 0 else 1) + if remaining > 1 then 0 else 1) := by
  unfold neededFor quad
  rw [padding_four]
  by_cases two : remaining > 1
  · by_cases three : remaining > 2
    · simp [two, three, letter_ne]
    · simp [two, three, letter_ne]
  · simp [two, show ¬remaining > 2 by omega]

theorem neededFor_base64 (data : List UInt8) : neededFor (base64 data) = data.length := by
  induction data using base64.induct with
  | case1 => rfl
  | case2 a =>
    rw [base64, neededFor_quad]
    rfl
  | case3 a b =>
    rw [base64, neededFor_quad]
    rfl
  | case4 a b c rest ih =>
    rw [base64]
    generalize a.toNat * 65536 + b.toNat * 256 + c.toNat = value
    by_cases isNil : rest = []
    · rw [isNil, base64, List.append_nil, neededFor_quad]
      rfl
    · unfold quad
      rw [List.cons_append, List.cons_append, List.cons_append, List.cons_append,
        List.nil_append, neededFor_cons _ _ _ _ (base64_ne_nil isNil)
          (by rw [base64_length]; omega), ih]
      simp only [List.length_cons]
      omega

/-! ## The loops -/

theorem encodeLoop_eq (data old front : List UInt8)
    (room : front.length + (base64 data).length ≤ old.length) :
    encodeLoop data (written old front) = some (written old (front ++ base64 data)) := by
  induction data using base64.induct generalizing front with
  | case1 => simp [encodeLoop, base64]
  | case2 a =>
    unfold encodeLoop base64
    rw [Nat.shiftLeft_eq]
    exact put_written room
  | case3 a b =>
    have lessB := b.toNat_lt
    have isValue : a.toNat <<< 16 ||| b.toNat <<< 8 = a.toNat * 65536 + b.toNat * 256 := by
      rw [Nat.shiftLeft_eq b.toNat 8]
      exact or_eq_add a.toNat (by omega)
    unfold encodeLoop base64
    rw [isValue]
    exact put_written room
  | case4 a b c rest ih =>
    have lessB := b.toNat_lt
    have lessC := c.toNat_lt
    have isValue : a.toNat <<< 16 ||| b.toNat <<< 8 ||| c.toNat =
        a.toNat * 65536 + b.toNat * 256 + c.toNat := by
      have low : b.toNat <<< 8 ||| c.toNat = b.toNat * 256 + c.toNat :=
        or_eq_add b.toNat (by omega)
      rw [Nat.or_assoc, low, or_eq_add a.toNat (show b.toNat * 256 + c.toNat < 2 ^ 16 by omega)]
      omega
    rw [base64, List.length_append] at room
    unfold encodeLoop
    rw [isValue, put_written (by omega), Option.bind_some, ih, base64, List.append_assoc]
    rw [List.length_append]
    omega

theorem quad_eq (remaining value : Nat) : ∃ t0 t1 t2 t3, quad remaining value = [t0, t1, t2, t3] :=
  ⟨_, _, _, _, rfl⟩

theorem decodeLoop_four {t0 t1 t2 t3 : UInt8} {rest bytes : List UInt8}
    (decoded : decodeQuad rest.isEmpty t0 t1 t2 t3 = some bytes) :
    decodeLoop (t0 :: t1 :: t2 :: t3 :: rest) none = decodeLoop rest none ∧
      ∀ old front : List UInt8, front.length + bytes.length ≤ old.length →
        decodeLoop (t0 :: t1 :: t2 :: t3 :: rest) (some (written old front)) =
          decodeLoop rest (some (written old (front ++ bytes))) := by
  constructor
  · rw [decodeLoop, decoded]
  · intro old front room
    rw [decodeLoop, decoded]
    dsimp only
    rw [put_written room, Option.bind_some]

theorem decodeLoop_base64 (data : List UInt8) : decodeLoop (base64 data) none = some (true, none) ∧
    ∀ old front : List UInt8, front.length + data.length ≤ old.length →
      decodeLoop (base64 data) (some (written old front)) =
        some (true, some (written old (front ++ data))) := by
  induction data using base64.induct with
  | case1 => simp [base64, decodeLoop]
  | case2 a =>
    rw [base64]
    obtain ⟨t0, t1, t2, t3, isQuad⟩ := quad_eq 1 (a.toNat * 65536)
    obtain ⟨isNone, isSome⟩ := @decodeLoop_four t0 t1 t2 t3 [] [a] (decodeQuad_one isQuad)
    rw [isQuad]
    exact ⟨isNone, isSome⟩
  | case3 a b =>
    rw [base64]
    obtain ⟨t0, t1, t2, t3, isQuad⟩ := quad_eq 2 (a.toNat * 65536 + b.toNat * 256)
    obtain ⟨isNone, isSome⟩ := @decodeLoop_four t0 t1 t2 t3 [] [a, b] (decodeQuad_two isQuad)
    rw [isQuad]
    exact ⟨isNone, isSome⟩
  | case4 a b c rest ih =>
    rw [base64]
    obtain ⟨t0, t1, t2, t3, isQuad⟩ :=
      quad_eq 3 (a.toNat * 65536 + b.toNat * 256 + c.toNat)
    obtain ⟨isNone, isSome⟩ := @decodeLoop_four t0 t1 t2 t3 (base64 rest) [a, b, c]
      (decodeQuad_three _ isQuad)
    rw [isQuad]
    constructor
    · exact isNone.trans ih.1
    intro old front room
    simp only [List.length_cons] at room
    refine (isSome old front ?_).trans ?_
    · simp only [List.length_cons, List.length_nil]
      omega
    · rw [ih.2 old (front ++ [a, b, c]), List.append_assoc]
      · rfl
      · simp only [List.length_append, List.length_cons, List.length_nil]
        omega

theorem base64_append : ∀ {bytes : List UInt8} (rest : List UInt8), bytes.length = 3 →
    base64 (bytes ++ rest) = base64 bytes ++ base64 rest
  | [_, _, _], rest, _ => by
      rw [List.cons_append, List.cons_append, List.cons_append, List.nil_append, base64, base64,
        base64, List.append_nil]

theorem neededFor_nonneg (whole : text.length % 4 = 0) : 0 ≤ neededFor text := by
  have most : padding text ≤ 2 := by
    unfold padding
    split <;> split <;> decide
  by_cases isNil : text = []
  · rw [isNil]
    decide
  · have some' := List.length_pos_of_ne_nil isNil
    unfold neededFor
    omega

/-- What the loop accepts is the text of the bytes that it writes, and on a
refusal it has written no more than the text stands for. -/
theorem decodeLoop_spec : ∀ text : List UInt8, text.length % 4 = 0 →
    ∃ accepted bytes, (bytes.length : Int) ≤ neededFor text ∧
      (accepted = true → base64 bytes = text) ∧
      decodeLoop text none = some (accepted, none) ∧
      ∀ old front : List UInt8, front.length + bytes.length ≤ old.length →
        decodeLoop text (some (written old front)) =
          some (accepted, some (written old (front ++ bytes)))
  | [], _ => ⟨true, [], by decide, fun _ => rfl, rfl, fun old front _ => by
      rw [List.append_nil]
      rfl⟩
  | [_], whole | [_, _], whole | [_, _, _], whole => by
      exfalso
      revert whole
      simp
  | t0 :: t1 :: t2 :: t3 :: rest, whole => by
      have whole' : rest.length % 4 = 0 := by
        simp only [List.length_cons] at whole
        omega
      cases decoded : decodeQuad rest.isEmpty t0 t1 t2 t3 with
      | none =>
        refine ⟨false, [], neededFor_nonneg whole, by simp, ?_, ?_⟩
        · rw [decodeLoop, decoded]
        · intro old front _
          rw [decodeLoop, decoded, List.append_nil]
      | some bytes =>
        obtain ⟨isText, size⟩ := decodeQuad_sound decoded
        obtain ⟨noOutput, output⟩ := decodeLoop_four decoded
        obtain ⟨accepted, more, less, sound, isNone, isSome⟩ := decodeLoop_spec rest whole'
        refine ⟨accepted, bytes ++ more, ?_, ?_, noOutput.trans isNone, ?_⟩
        · rw [List.length_append]
          by_cases isNil : rest = []
          · have exact' := neededFor_base64 bytes
            rw [isNil] at less ⊢
            rw [isText] at exact'
            have isZero : neededFor [] = 0 := by decide
            omega
          · have isThree : bytes.length = 3 := by
              apply size.resolve_right
              intro last
              exact isNil (List.isEmpty_iff.mp last.1)
            rw [neededFor_cons t0 t1 t2 t3 isNil whole']
            omega
        · intro yes
          have isRest := sound yes
          by_cases isNil : rest = []
          · have noMore : more = [] := by
              by_contra notNil
              exact base64_ne_nil notNil (isRest.trans isNil)
            rw [noMore, List.append_nil, isText, isNil]
          · have isThree : bytes.length = 3 := by
              apply size.resolve_right
              intro last
              exact isNil (List.isEmpty_iff.mp last.1)
            rw [base64_append more isThree, isText, isRest]
            rfl
        · intro old front room
          rw [List.length_append] at room
          rw [output old front (by omega), isSome, List.append_assoc]
          rw [List.length_append]
          omega

/-! ## The functions -/

theorem bytesAt_length (bytes : List UInt8) : bytesAt (some bytes) bytes.length = some bytes := by
  unfold bytesAt
  rw [Option.getD_some, if_pos (Int.le_refl _), Int.toNat_natCast, List.take_length]

/-- The text of the bytes, with a NUL behind it, in a buffer with room for it. -/
theorem base64Encode_eq {buffer : List UInt8} (accepted : ((base64 data).length : Int) ≤ i64Max)
    (room : (base64 data).length < capacity) (inside : capacity ≤ buffer.length) :
    base64Encode (some data) data.length (some buffer) capacity =
      some ⟨true, some (base64 data).length,
        some (base64 data ++ 0 :: buffer.drop ((base64 data).length + 1))⟩ := by
  rw [base64_length] at accepted
  have needed := base64EncodedLength_eq accepted
  rw [← base64_length] at needed
  have wrote := encodeLoop_eq data buffer [] (by rw [List.length_nil]; omega)
  rw [written_nil, List.nil_append] at wrote
  unfold base64Encode
  dsimp only
  rw [needed, if_neg (by simp; omega), if_neg (by omega), bytesAt_length, Option.bind_some, wrote,
    Option.bind_some, put_written (by rw [List.length_singleton]; omega), Option.map_some]
  simp [written]
theorem base64Encode_small {buffer : List UInt8} (accepted : ((base64 data).length : Int) ≤ i64Max)
    (nonneg : 0 ≤ capacity) (small : capacity ≤ (base64 data).length) :
    base64Encode (some data) data.length (some buffer) capacity =
      some ⟨false, some (base64 data).length, some buffer⟩ := by
  rw [base64_length] at accepted
  have needed := base64EncodedLength_eq accepted
  rw [← base64_length] at needed
  unfold base64Encode
  dsimp only
  rw [needed, if_neg (by simp; omega), if_pos small]

theorem base64Encode_length (accepted : ((base64 data).length : Int) ≤ i64Max)
    (nonneg : 0 ≤ capacity) :
    base64Encode (some data) data.length none capacity =
      some ⟨true, some (base64 data).length, none⟩ := by
  rw [base64_length] at accepted
  have needed := base64EncodedLength_eq accepted
  rw [← base64_length] at needed
  unfold base64Encode
  dsimp only
  rw [needed, if_neg (by simp; omega)]

/-- The decoder looks at texts of a whole number of quads only. -/
theorem base64Decode_whole (text : List UInt8) (output : Option (List UInt8))
    (nonneg : 0 ≤ capacity) : base64Decode (some text) text.length output capacity =
      if text.length % 4 = 0 then decodeText text output capacity
      else some ⟨false, none, output⟩ := by
  unfold base64Decode
  rw [Int.toNat_natCast, Nat.and_two_pow_sub_one_eq_mod text.length 2, bytesAt_length,
    Option.bind_some]
  by_cases whole : text.length % 4 = 0
  · rw [if_pos whole, if_neg (by simp; omega)]
  · rw [if_neg whole, if_pos (by simp; omega)]

theorem needed_eq (isLength : (text.length : Int) ≤ i64Max) :
    i64 (i64 ((text.length : Int) / 4 * 3) - padding text) = neededFor text := by
  have least : 0 ≤ padding text ∧ padding text ≤ 2 := by
    unfold padding
    split <;> split <;> decide
  unfold i64Max at isLength
  have isProduct : i64 ((text.length : Int) / 4 * 3) = (text.length : Int) / 4 * 3 :=
    i64_eq (by omega) (by unfold i64Max; omega)
  rw [isProduct]
  exact i64_eq (by omega) (by unfold i64Max; omega)

/-! ## The bijection -/

/-- Encoding `data` gives `text` wherever there is room for it and a NUL. -/
def Encodes (data text : List UInt8) : Prop :=
  ∀ capacity : Int, 0 ≤ capacity →
    base64Encode (some data) data.length none capacity = some ⟨true, some text.length, none⟩ ∧
    ∀ buffer : List UInt8, capacity ≤ buffer.length →
      base64Encode (some data) data.length (some buffer) capacity =
        if capacity ≤ text.length then some ⟨false, some text.length, some buffer⟩
        else some ⟨true, some text.length, some (text ++ 0 :: buffer.drop (text.length + 1))⟩

def Decodes (text data : List UInt8) : Prop :=
  ∀ capacity : Int, 0 ≤ capacity →
    base64Decode (some text) text.length none capacity = some ⟨true, some data.length, none⟩ ∧
    ∀ buffer : List UInt8, capacity ≤ buffer.length →
      base64Decode (some text) text.length (some buffer) capacity =
        if capacity < data.length then some ⟨false, some data.length, some buffer⟩
        else some ⟨true, some data.length, some (data ++ buffer.drop data.length)⟩

/-- Decoding `text` fails, and what it writes is within the reported length. -/
def Refuses (text : List UInt8) : Prop :=
  ∀ capacity : Int, 0 ≤ capacity →
    (∃ reported, base64Decode (some text) text.length none capacity =
      some ⟨false, reported, none⟩) ∧
    ∀ buffer : List UInt8, capacity ≤ buffer.length → ∃ reported bytes,
      base64Decode (some text) text.length (some buffer) capacity =
        some ⟨false, reported, some (bytes ++ buffer.drop bytes.length)⟩ ∧
      (bytes.length : Int) ≤ reported.getD 0 ∧ (bytes.length : Int) ≤ capacity

theorem encodes_base64 (accepted : ((base64 data).length : Int) ≤ i64Max) :
    Encodes data (base64 data) := by
  intro capacity nonneg
  refine ⟨base64Encode_length accepted nonneg, ?_⟩
  intro buffer inside
  split
  next small => exact base64Encode_small accepted nonneg small
  next large => exact base64Encode_eq accepted (by omega) inside

theorem decodes_base64 (isLength : ((base64 data).length : Int) ≤ i64Max) :
    Decodes (base64 data) data := by
  have whole : (base64 data).length % 4 = 0 := by
    rw [base64_length]
    omega
  have needed := needed_eq isLength
  rw [neededFor_base64] at needed
  obtain ⟨isNone, isSome⟩ := decodeLoop_base64 data
  intro capacity nonneg
  refine ⟨?_, ?_⟩
  · rw [base64Decode_whole _ _ nonneg, if_pos whole]
    unfold decodeText
    dsimp only
    rw [isNone, needed, Option.map_some]
  · intro buffer inside
    rw [base64Decode_whole _ _ nonneg, if_pos whole]
    unfold decodeText
    dsimp only
    rw [needed]
    split
    · rfl
    next large =>
      have wrote := isSome buffer [] (by rw [List.length_nil]; omega)
      rw [written_nil, List.nil_append] at wrote
      rw [wrote]
      rfl

theorem refuses_other (isLength : (text.length : Int) ≤ i64Max) (other : ∀ data, base64 data ≠ text) :
    Refuses text := by
  intro capacity nonneg
  have needed := needed_eq isLength
  by_cases whole : text.length % 4 = 0
  · obtain ⟨accepted, bytes, less, sound, isNone, isSome⟩ := decodeLoop_spec text whole
    have refused : accepted = false := by
      by_contra yes
      exact other bytes (sound (by simpa using yes))
    refine ⟨⟨some (neededFor text), ?_⟩, ?_⟩
    · rw [base64Decode_whole _ _ nonneg, if_pos whole]
      unfold decodeText
      dsimp only
      rw [isNone, needed, Option.map_some, refused]
    · intro buffer inside
      rw [base64Decode_whole _ _ nonneg, if_pos whole]
      unfold decodeText
      dsimp only
      rw [needed]
      split
      · exact ⟨some (neededFor text), [], rfl, neededFor_nonneg whole, nonneg⟩
      next large =>
        have wrote := isSome buffer [] (by rw [List.length_nil]; omega)
        rw [written_nil, List.nil_append] at wrote
        rw [wrote, refused]
        exact ⟨some (neededFor text), bytes, rfl, less, by omega⟩
  · refine ⟨⟨none, by rw [base64Decode_whole _ _ nonneg, if_neg whole]⟩, ?_⟩
    intro buffer _
    rw [base64Decode_whole _ _ nonneg, if_neg whole]
    exact ⟨none, [], rfl, by decide, nonneg⟩

theorem Encodes.accepted (encodes : Encodes data text) (isLength : (data.length : Int) ≤ i64Max) :
    ((base64 data).length : Int) ≤ i64Max := by
  by_contra long
  have tooLong : (data.length : Int) < 0 ∨ i64Max < ((data.length : Int) + 2) / 3 * 4 := by
    rw [base64_length] at long
    omega
  have refused := base64EncodedLength_none tooLong isLength
  have isText := (encodes 0 (Int.le_refl 0)).1
  unfold base64Encode at isText
  dsimp only at isText
  rw [refused, if_pos (Or.inl (by decide))] at isText
  cases isText

theorem Encodes.unique {one two : List UInt8} (isOne : Encodes data one) (isTwo : Encodes data two) :
    one = two := by
  have same := (isOne 0 (Int.le_refl 0)).1.symm.trans (isTwo 0 (Int.le_refl 0)).1
  simp only [Option.some.injEq, Coded.mk.injEq, true_and, and_true, Int.natCast_inj] at same
  have wroteOne := (isOne (one.length + 1) (by omega)).2 (List.replicate (one.length + 1) 0)
    (by rw [List.length_replicate]; omega)
  have wroteTwo := (isTwo (one.length + 1) (by omega)).2 (List.replicate (one.length + 1) 0)
    (by rw [List.length_replicate]; omega)
  rw [wroteOne, if_neg (by omega), if_neg (by omega)] at wroteTwo
  simp only [Option.some.injEq, Coded.mk.injEq, true_and] at wroteTwo
  exact List.append_inj_left wroteTwo.2 same

/-- Base64 is a bijection onto the texts that the decoder accepts. -/
structure Bijection : Prop where
  length : ∀ length : Int, length ≤ i64Max → base64EncodedLength length =
    if 0 ≤ length ∧ (length + 2) / 3 * 4 ≤ i64Max then (length + 2) / 3 * 4 else -1
  encodes : ∀ data : List UInt8, base64EncodedLength data.length ≠ -1 → ∃ text : List UInt8,
    base64EncodedLength data.length = text.length ∧ Encodes data text ∧ Decodes text data
  canonical : ∀ text : List UInt8, (text.length : Int) ≤ i64Max →
    (∃ data, Decodes text data ∧ Encodes data text) ∨
      Refuses text ∧ ∀ data : List UInt8, (data.length : Int) ≤ i64Max → ¬Encodes data text

theorem base64_bijection : Bijection where
  length := by
    intro length isI64
    split
    next fits =>
      obtain ⟨n, rfl⟩ := Int.eq_ofNat_of_zero_le fits.1
      rw [base64EncodedLength_eq (by omega)]
      omega
    next not =>
      apply base64EncodedLength_none _ isI64
      omega
  encodes := by
    intro data accepted
    have fits : ((base64 data).length : Int) ≤ i64Max := by
      by_contra long
      have short : (data.length : Int) ≤ i64Max := by
        by_contra huge
        apply accepted
        unfold base64EncodedLength
        rw [if_pos (by omega)]
      apply accepted
      apply base64EncodedLength_none _ short
      rw [base64_length] at long
      omega
    refine ⟨base64 data, ?_, encodes_base64 fits, decodes_base64 fits⟩
    rw [base64_length] at fits ⊢
    exact base64EncodedLength_eq fits
  canonical := by
    intro text isLength
    by_cases isText : ∃ data, base64 data = text
    · obtain ⟨data, rfl⟩ := isText
      exact Or.inl ⟨data, decodes_base64 isLength, encodes_base64 isLength⟩
    · have other : ∀ data, base64 data ≠ text := fun data same => isText ⟨data, same⟩
      refine Or.inr ⟨refuses_other isLength other, ?_⟩
      intro data isI64 encodes
      have fits := encodes.accepted isI64
      exact other data (Encodes.unique (encodes_base64 fits) encodes)

end Aholyc.Base64
