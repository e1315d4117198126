import Mathlib.Data.List.Perm.Subperm
import Mathlib.Data.Nat.Bitwise
import Aholyc.Lib.PrefixCode
import Aholyc.Text.Runes

/-!
# The encodings of texts (lib/text/encoding.HC)

Runes are read and written in eight encodings: UTF-8, UTF-16 and UTF-32 in both
byte orders, ASCII, Latin-1 and EBCDIC. In each a rune is read from exactly the
bytes that are written for it.
-/

namespace Aholyc.Text

open Aholyc.Lib

def textEncodingUtf8 : Int := 1
def textEncodingUtf16Le : Int := 2
def textEncodingUtf16Be : Int := 3
def textEncodingUtf32Le : Int := 4
def textEncodingUtf32Be : Int := 5
def textEncodingAscii : Int := 6
def textEncodingLatin1 : Int := 7
def textEncodingEbcdic037 : Int := 8

def textEbcdic037ToRune : List Nat :=
  [0x00, 0x01, 0x02, 0x03, 0x9C, 0x09, 0x86, 0x7F, 0x97, 0x8D, 0x8E, 0x0B, 0x0C, 0x0D, 0x0E, 0x0F,
   0x10, 0x11, 0x12, 0x13, 0x9D, 0x85, 0x08, 0x87, 0x18, 0x19, 0x92, 0x8F, 0x1C, 0x1D, 0x1E, 0x1F,
   0x80, 0x81, 0x82, 0x83, 0x84, 0x0A, 0x17, 0x1B, 0x88, 0x89, 0x8A, 0x8B, 0x8C, 0x05, 0x06, 0x07,
   0x90, 0x91, 0x16, 0x93, 0x94, 0x95, 0x96, 0x04, 0x98, 0x99, 0x9A, 0x9B, 0x14, 0x15, 0x9E, 0x1A,
   0x20, 0xA0, 0xE2, 0xE4, 0xE0, 0xE1, 0xE3, 0xE5, 0xE7, 0xF1, 0xA2, 0x2E, 0x3C, 0x28, 0x2B, 0x7C,
   0x26, 0xE9, 0xEA, 0xEB, 0xE8, 0xED, 0xEE, 0xEF, 0xEC, 0xDF, 0x21, 0x24, 0x2A, 0x29, 0x3B, 0xAC,
   0x2D, 0x2F, 0xC2, 0xC4, 0xC0, 0xC1, 0xC3, 0xC5, 0xC7, 0xD1, 0xA6, 0x2C, 0x25, 0x5F, 0x3E, 0x3F,
   0xF8, 0xC9, 0xCA, 0xCB, 0xC8, 0xCD, 0xCE, 0xCF, 0xCC, 0x60, 0x3A, 0x23, 0x40, 0x27, 0x3D, 0x22,
   0xD8, 0x61, 0x62, 0x63, 0x64, 0x65, 0x66, 0x67, 0x68, 0x69, 0xAB, 0xBB, 0xF0, 0xFD, 0xFE, 0xB1,
   0xB0, 0x6A, 0x6B, 0x6C, 0x6D, 0x6E, 0x6F, 0x70, 0x71, 0x72, 0xAA, 0xBA, 0xE6, 0xB8, 0xC6, 0xA4,
   0xB5, 0x7E, 0x73, 0x74, 0x75, 0x76, 0x77, 0x78, 0x79, 0x7A, 0xA1, 0xBF, 0xD0, 0xDD, 0xDE, 0xAE,
   0x5E, 0xA3, 0xA5, 0xB7, 0xA9, 0xA7, 0xB6, 0xBC, 0xBD, 0xBE, 0x5B, 0x5D, 0xAF, 0xA8, 0xB4, 0xD7,
   0x7B, 0x41, 0x42, 0x43, 0x44, 0x45, 0x46, 0x47, 0x48, 0x49, 0xAD, 0xF4, 0xF6, 0xF2, 0xF3, 0xF5,
   0x7D, 0x4A, 0x4B, 0x4C, 0x4D, 0x4E, 0x4F, 0x50, 0x51, 0x52, 0xB9, 0xFB, 0xFC, 0xF9, 0xFA, 0xFF,
   0x5C, 0xF7, 0x53, 0x54, 0x55, 0x56, 0x57, 0x58, 0x59, 0x5A, 0xB2, 0xD4, 0xD6, 0xD2, 0xD3, 0xD5,
   0x30, 0x31, 0x32, 0x33, 0x34, 0x35, 0x36, 0x37, 0x38, 0x39, 0xB3, 0xDB, 0xDC, 0xD9, 0xDA, 0x9F]

/-! ## Reading -/

/-- `data[0] << 8 | data[1]` or `data[0] | data[1] << 8` -/
def unit16 (big : Bool) (a b : UInt8) : Nat :=
  if big then a.toNat <<< 8 ||| b.toNat else a.toNat ||| b.toNat <<< 8

def unit32 (big : Bool) (a b c d : UInt8) : Nat :=
  if big then a.toNat <<< 24 ||| b.toNat <<< 16 ||| c.toNat <<< 8 ||| d.toNat
  else a.toNat ||| b.toNat <<< 8 ||| c.toNat <<< 16 ||| d.toNat <<< 24

def decodeUtf16 (big : Bool) (data : List UInt8) : Option (Nat × Nat) :=
  match data with
  | a :: b :: rest =>
    let first := unit16 big a b
    if first ≥ 0xD800 ∧ first ≤ 0xDBFF then
      match rest with
      | c :: d :: _ =>
        let second := unit16 big c d
        if second < 0xDC00 ∨ second > 0xDFFF then none
        else some (4, 0x10000 + (first - 0xD800) <<< 10 + second - 0xDC00)
      | _ => none
    else if first ≥ 0xDC00 ∧ first ≤ 0xDFFF then none
    else some (2, first)
  | _ => none

def decodeUtf32 (big : Bool) (data : List UInt8) : Option (Nat × Nat) :=
  match data with
  | a :: b :: c :: d :: _ =>
    let value := unit32 big a b c d
    if value > 0x10FFFF ∨ value ≥ 0xD800 ∧ value ≤ 0xDFFF then none else some (4, value)
  | _ => none

/-- The bytes read and the rune; `none` is the source's zero. -/
def textDecodeRune (data : List UInt8) (encoding : Int) : Option (Nat × Nat) :=
  match data with
  | [] => none
  | first :: _ =>
    if encoding = textEncodingUtf8 then utf8DecodeRune data
    else if encoding = textEncodingAscii then
      if first > 0x7F then none else some (1, first.toNat)
    else if encoding = textEncodingLatin1 then some (1, first.toNat)
    else if encoding = textEncodingEbcdic037 then
      some (1, textEbcdic037ToRune.getD first.toNat 0)
    else
      let big := encoding == textEncodingUtf16Be || encoding == textEncodingUtf32Be
      if encoding = textEncodingUtf16Le ∨ encoding = textEncodingUtf16Be then decodeUtf16 big data
      else if encoding ≠ textEncodingUtf32Le ∧ encoding ≠ textEncodingUtf32Be then none
      else decodeUtf32 big data

/-! ## Writing -/

/-- `output[0] = unit >> 8; output[1] = unit;` or in the other order. -/
def bytes16 (big : Bool) (unit : Nat) : List UInt8 :=
  if big then [UInt8.ofNat (unit >>> 8), UInt8.ofNat unit]
  else [UInt8.ofNat unit, UInt8.ofNat (unit >>> 8)]

def bytes32 (big : Bool) (rune : Nat) : List UInt8 :=
  if big then [UInt8.ofNat (rune >>> 24), UInt8.ofNat (rune >>> 16), UInt8.ofNat (rune >>> 8),
    UInt8.ofNat rune]
  else [UInt8.ofNat rune, UInt8.ofNat (rune >>> 8), UInt8.ofNat (rune >>> 16),
    UInt8.ofNat (rune >>> 24)]

/-- What is returned for the bytes `word`, and what is written: nothing without
an output, which is without a capacity, or without room. -/
def sized (word : List UInt8) (capacity : Option Int) : Nat × List UInt8 :=
  match capacity with
  | none => (word.length, [])
  | some capacity => if capacity < word.length then (0, []) else (word.length, word)

def encodeUtf16 (big : Bool) (rune : Nat) : List UInt8 :=
  if rune ≤ 0xFFFF then bytes16 big rune
  else
    let value := rune - 0x10000
    bytes16 big (0xD800 + value >>> 10) ++ bytes16 big (0xDC00 + (value &&& 0x3FF))

def textEncodeRune (rune encoding : Int) (capacity : Option Int) : Nat × List UInt8 :=
  if rune < 0 ∨ rune > 0x10FFFF ∨ rune ≥ 0xD800 ∧ rune ≤ 0xDFFF then (0, [])
  else if encoding = textEncodingUtf8 then utf8EncodeRune rune capacity
  else if encoding = textEncodingAscii ∨ encoding = textEncodingLatin1 then
    if encoding = textEncodingAscii ∧ rune > 0x7F ∨ encoding = textEncodingLatin1 ∧ rune > 0xFF then
      (0, [])
    else sized [UInt8.ofNat rune.toNat] capacity
  else if encoding = textEncodingEbcdic037 then
    let i := textEbcdic037ToRune.findIdx (· == rune.toNat)
    if i = 256 then (0, []) else sized [UInt8.ofNat i] capacity
  else
    let big := encoding == textEncodingUtf16Be || encoding == textEncodingUtf32Be
    if encoding = textEncodingUtf16Le ∨ encoding = textEncodingUtf16Be then
      sized (encodeUtf16 big rune.toNat) capacity
    else if encoding ≠ textEncodingUtf32Le ∧ encoding ≠ textEncodingUtf32Be then (0, [])
    else sized (bytes32 big rune.toNat) capacity

/-! ## Codes -/

def Represents (encoding : Int) (rune : Nat) : Prop :=
  IsScalar rune ∧
    (1 ≤ encoding ∧ encoding ≤ 5 ∨ encoding = 6 ∧ rune ≤ 0x7F ∨
      7 ≤ encoding ∧ encoding ≤ 8 ∧ rune ≤ 0xFF)

/-- The functions write and read `word rune` for a rune with `represents`. -/
structure Codes (encoding : Int) (represents : Nat → Prop) (word : Nat → List UInt8) : Prop where
  scalar : ∀ rune, represents rune → IsScalar rune
  encodes : ∀ rune : Nat, represents rune → ∀ capacity,
    textEncodeRune rune encoding capacity = sized (word rune) capacity
  refuses : ∀ rune : Nat, ¬represents rune → ∀ capacity,
    textEncodeRune rune encoding capacity = (0, [])
  reads : ∀ rune rest, represents rune →
    textDecodeRune (word rune ++ rest) encoding = some ((word rune).length, rune)
  sound : ∀ data size rune, textDecodeRune data encoding = some (size, rune) →
    represents rune ∧ ∃ rest, data = word rune ++ rest ∧ (word rune).length = size
  nonempty : ∀ rune, word rune ≠ []
  short : ∀ rune, (word rune).length ≤ 4

/-! ## Units -/

theorem unit16_eq (big : Bool) (a b : UInt8) :
    unit16 big a b = if big then a.toNat * 256 + b.toNat else a.toNat + b.toNat * 256 := by
  have lessA := a.toNat_lt
  have lessB := b.toNat_lt
  unfold unit16
  cases big with
  | true => exact or_lead a.toNat 8 (by omega)
  | false =>
    have joined : b.toNat <<< 8 ||| a.toNat = b.toNat * 256 + a.toNat :=
      or_lead b.toNat 8 (by omega)
    simp only [Bool.false_eq_true, if_false]
    rw [Nat.or_comm, joined, Nat.add_comm]

theorem unit16_lt (big : Bool) (a b : UInt8) : unit16 big a b < 65536 := by
  have lessA := a.toNat_lt
  have lessB := b.toNat_lt
  rw [unit16_eq]
  split <;> omega

/-- A unit of two bytes is read from what is written for it. -/
theorem bytes16_eq (big : Bool) (unit : Nat) (less : unit < 65536) :
    ∃ a b, bytes16 big unit = [a, b] ∧ unit16 big a b = unit := by
  have high : (UInt8.ofNat (unit >>> 8)).toNat = unit / 256 := by
    rw [UInt8.toNat_ofNat', Nat.shiftRight_eq_div_pow]
    omega
  have low : (UInt8.ofNat unit).toNat = unit % 256 := UInt8.toNat_ofNat'
  cases big with
  | true =>
    refine ⟨_, _, rfl, ?_⟩
    rw [unit16_eq, high, low]
    simp only [if_true]
    omega
  | false =>
    refine ⟨_, _, rfl, ?_⟩
    rw [unit16_eq, high, low]
    simp only [Bool.false_eq_true, if_false]
    omega

theorem bytes16_unit16 (big : Bool) (a b : UInt8) : bytes16 big (unit16 big a b) = [a, b] := by
  have lessA := a.toNat_lt
  have lessB := b.toNat_lt
  rw [unit16_eq]
  unfold bytes16
  cases big with
  | true =>
    simp only [if_true, List.cons.injEq, and_true, ← UInt8.toNat_inj, UInt8.toNat_ofNat',
      Nat.shiftRight_eq_div_pow]
    omega
  | false =>
    simp only [Bool.false_eq_true, if_false, List.cons.injEq, and_true, ← UInt8.toNat_inj,
      UInt8.toNat_ofNat', Nat.shiftRight_eq_div_pow]
    omega

theorem join_bytes (a b c d : UInt8) :
    a.toNat <<< 24 ||| b.toNat <<< 16 ||| c.toNat <<< 8 ||| d.toNat =
      a.toNat * 16777216 + b.toNat * 65536 + c.toNat * 256 + d.toNat := by
  have lessB := b.toNat_lt
  have lessC := c.toNat_lt
  have lessD := d.toNat_lt
  have low : c.toNat <<< 8 ||| d.toNat = c.toNat * 256 + d.toNat := or_lead c.toNat 8 (by omega)
  have middle : b.toNat <<< 16 ||| (c.toNat * 256 + d.toNat) =
      b.toNat * 65536 + (c.toNat * 256 + d.toNat) := or_lead b.toNat 16 (by omega)
  rw [Nat.or_assoc, Nat.or_assoc, low, middle, or_lead a.toNat 24 (by omega)]
  omega

theorem unit32_eq (big : Bool) (a b c d : UInt8) : unit32 big a b c d =
    if big then a.toNat * 16777216 + b.toNat * 65536 + c.toNat * 256 + d.toNat
    else d.toNat * 16777216 + c.toNat * 65536 + b.toNat * 256 + a.toNat := by
  unfold unit32
  cases big with
  | true => exact join_bytes a b c d
  | false =>
    simp only [Bool.false_eq_true, if_false]
    rw [← join_bytes d c b a, Nat.or_comm a.toNat, Nat.or_comm _ (c.toNat <<< 16),
      Nat.or_comm _ (d.toNat <<< 24), ← Nat.or_assoc, ← Nat.or_assoc]

theorem bytes32_eq (big : Bool) (rune : Nat) (less : rune < 4294967296) :
    ∃ a b c d, bytes32 big rune = [a, b, c, d] ∧ unit32 big a b c d = rune := by
  have byte (k : Nat) : (UInt8.ofNat (rune >>> k)).toNat = rune / 2 ^ k % 256 := by
    rw [UInt8.toNat_ofNat', Nat.shiftRight_eq_div_pow]
  have low : (UInt8.ofNat rune).toNat = rune % 256 := UInt8.toNat_ofNat'
  cases big with
  | true =>
    refine ⟨_, _, _, _, rfl, ?_⟩
    rw [unit32_eq, byte, byte, byte, low]
    simp only [if_true]
    omega
  | false =>
    refine ⟨_, _, _, _, rfl, ?_⟩
    rw [unit32_eq, byte, byte, byte, low]
    simp only [Bool.false_eq_true, if_false]
    omega

theorem bytes32_unit32 (big : Bool) (a b c d : UInt8) :
    bytes32 big (unit32 big a b c d) = [a, b, c, d] := by
  have lessA := a.toNat_lt
  have lessB := b.toNat_lt
  have lessC := c.toNat_lt
  have lessD := d.toNat_lt
  rw [unit32_eq]
  unfold bytes32
  cases big with
  | true =>
    simp only [if_true, List.cons.injEq, and_true, ← UInt8.toNat_inj, UInt8.toNat_ofNat',
      Nat.shiftRight_eq_div_pow]
    omega
  | false =>
    simp only [Bool.false_eq_true, if_false, List.cons.injEq, and_true, ← UInt8.toNat_inj,
      UInt8.toNat_ofNat', Nat.shiftRight_eq_div_pow]
    omega

/-! ## UTF-16 -/

variable {rune : Nat}

theorem decodeUtf16_reads (big : Bool) (scalar : IsScalar rune) (rest : List UInt8) :
    decodeUtf16 big (encodeUtf16 big rune ++ rest) =
      some ((encodeUtf16 big rune).length, rune) := by
  unfold IsScalar at scalar
  unfold encodeUtf16
  split
  next one =>
    obtain ⟨a, b, isWord, isUnit⟩ := bytes16_eq big rune (by omega)
    rw [isWord]
    unfold decodeUtf16
    simp only [List.cons_append, List.nil_append, isUnit]
    rw [if_neg (by omega), if_neg (by omega)]
    rfl
  next two =>
    dsimp only
    have high : (rune - 0x10000) >>> 10 = (rune - 0x10000) / 1024 := Nat.shiftRight_eq_div_pow _ 10
    have low : (rune - 0x10000) &&& 0x3FF = (rune - 0x10000) % 1024 :=
      Nat.and_two_pow_sub_one_eq_mod _ 10
    rw [high, low]
    obtain ⟨a, b, isFirst, first⟩ :=
      bytes16_eq big (0xD800 + (rune - 0x10000) / 1024) (by omega)
    obtain ⟨c, d, isSecond, second⟩ :=
      bytes16_eq big (0xDC00 + (rune - 0x10000) % 1024) (by omega)
    rw [isFirst, isSecond]
    unfold decodeUtf16
    simp only [List.cons_append, List.nil_append, first, second]
    rw [if_pos (by omega), if_neg (by omega), Nat.shiftLeft_eq]
    simp only [List.length_cons, List.length_nil, Option.some.injEq, Prod.mk.injEq, true_and]
    omega

theorem decodeUtf16_sound {big : Bool} {data : List UInt8} {size : Nat}
    (read : decodeUtf16 big data = some (size, rune)) :
    IsScalar rune ∧ ∃ rest, data = encodeUtf16 big rune ++ rest ∧
      (encodeUtf16 big rune).length = size := by
  unfold decodeUtf16 at read
  split at read
  next a b rest =>
    have less := unit16_lt big a b
    have isFirst := bytes16_unit16 big a b
    dsimp only at read
    split at read
    next leads =>
      split at read
      next c d rest =>
        have isSecond := bytes16_unit16 big c d
        split at read
        · cases read
        next trails =>
          cases read
          rw [Nat.shiftLeft_eq]
          generalize isValue : 0x10000 + (unit16 big a b - 0xD800) * 2 ^ 10 + unit16 big c d -
            0xDC00 = value
          have high : 0xD800 + (value - 0x10000) >>> 10 = unit16 big a b := by
            rw [Nat.shiftRight_eq_div_pow]
            omega
          have low : 0xDC00 + ((value - 0x10000) &&& 0x3FF) = unit16 big c d := by
            rw [Nat.and_two_pow_sub_one_eq_mod _ 10]
            omega
          have isWord : encodeUtf16 big value = [a, b, c, d] := by
            unfold encodeUtf16
            dsimp only
            rw [if_neg (by omega), high, low, isFirst, isSecond]
            rfl
          rw [isWord]
          refine ⟨?_, rest, rfl, rfl⟩
          unfold IsScalar
          omega
      next => cases read
    next alone =>
      split at read
      · cases read
      next notTrails =>
        cases read
        have isWord : encodeUtf16 big (unit16 big a b) = [a, b] := by
          unfold encodeUtf16
          rw [if_pos (by omega), isFirst]
        rw [isWord]
        refine ⟨?_, rest, rfl, rfl⟩
        unfold IsScalar
        omega
  next => cases read

/-! ## UTF-32 -/

theorem decodeUtf32_reads (big : Bool) (scalar : IsScalar rune) (rest : List UInt8) :
    decodeUtf32 big (bytes32 big rune ++ rest) = some ((bytes32 big rune).length, rune) := by
  unfold IsScalar at scalar
  obtain ⟨a, b, c, d, isWord, isUnit⟩ := bytes32_eq big rune (by omega)
  rw [isWord]
  unfold decodeUtf32
  simp only [List.cons_append, List.nil_append, isUnit]
  rw [if_neg (by omega)]
  rfl

theorem decodeUtf32_sound {big : Bool} {data : List UInt8} {size : Nat}
    (read : decodeUtf32 big data = some (size, rune)) :
    IsScalar rune ∧ ∃ rest, data = bytes32 big rune ++ rest ∧
      (bytes32 big rune).length = size := by
  unfold decodeUtf32 at read
  split at read
  next a b c d rest =>
    dsimp only at read
    split at read
    · cases read
    next valid =>
      cases read
      rw [bytes32_unit32]
      refine ⟨?_, rest, rfl, rfl⟩
      unfold IsScalar
      omega
  next => cases read

/-! ## The eight encodings -/

theorem sized_fits {word : List UInt8} {capacity : Int} (fits : (word.length : Int) ≤ capacity) :
    sized word (some capacity) = (word.length, word) := by
  unfold sized
  exact if_neg (by omega)

theorem textEncodeRune_scalar {rune : Int} (encoding : Int) (capacity : Option Int)
    (notScalar : rune < 0 ∨ ¬IsScalar rune.toNat) :
    textEncodeRune rune encoding capacity = (0, []) := by
  unfold IsScalar at notScalar
  unfold textEncodeRune
  rw [if_pos (by omega)]

theorem notSurrogate (scalar : IsScalar rune) :
    ¬((rune : Int) < 0 ∨ (rune : Int) > 0x10FFFF ∨
      (rune : Int) ≥ 0xD800 ∧ (rune : Int) ≤ 0xDFFF) := by
  unfold IsScalar at scalar
  omega

theorem codes_utf8 : Codes textEncodingUtf8 IsScalar runeBytes where
  scalar := fun _ scalar => scalar
  encodes := by
    intro rune scalar capacity
    have isUtf8 : textEncodeRune rune textEncodingUtf8 capacity = utf8EncodeRune rune capacity := by
      unfold textEncodeRune
      rw [if_neg (notSurrogate scalar), if_pos rfl]
    rw [isUtf8]
    cases capacity with
    | none => exact utf8EncodeRune_size scalar
    | some capacity =>
      by_cases full : capacity < (runeBytes rune).length
      · rw [utf8EncodeRune_full scalar full]
        exact (if_pos full).symm
      · rw [utf8EncodeRune_fits scalar (by omega), sized_fits (by omega)]
  refuses := by
    intro rune notScalar capacity
    exact textEncodeRune_scalar _ capacity (Or.inr notScalar)
  reads := by
    intro rune rest scalar
    have wellFormed := wellFormed_runeBytes scalar
    have read := utf8DecodeRune_iff.mpr ⟨_, rest, rfl, wellFormed, rfl⟩
    cases isText : runeBytes rune ++ rest with
    | nil => exact absurd (List.append_eq_nil_iff.mp isText).1 wellFormed.ne_nil
    | cons first more =>
      rw [isText] at read
      exact read
  sound := by
    intro data size rune read
    have read' : utf8DecodeRune data = some (size, rune) := by
      cases data with
      | nil => cases read
      | cons first rest => exact read
    obtain ⟨bytes, rest, isText, wellFormed, isSize⟩ := utf8DecodeRune_iff.mp read'
    have isBytes := wellFormed.eq_runeBytes
    rw [isBytes] at isText isSize
    exact ⟨(wellFormed_char wellFormed).1, rest, isText, isSize⟩
  nonempty := by
    intro rune
    apply List.ne_nil_of_length_pos
    unfold runeBytes
    rw [List.length_map, codeUnits_length]
    split <;> [skip; split <;> [skip; split]] <;> decide
  short := by
    intro rune
    unfold runeBytes
    rw [List.length_map, codeUnits_length]
    split <;> [skip; split <;> [skip; split]] <;> decide

theorem codes_byte {encoding : Int} {represents : Nat → Prop} (byte : Nat → UInt8)
    (scalar : ∀ rune, represents rune → IsScalar rune)
    (encodes : ∀ rune : Nat, represents rune → ∀ capacity,
      textEncodeRune rune encoding capacity = sized [byte rune] capacity)
    (refuses : ∀ rune : Nat, IsScalar rune → ¬represents rune → ∀ capacity,
      textEncodeRune rune encoding capacity = (0, []))
    (reads : ∀ first rest rune size, textDecodeRune (first :: rest) encoding = some (size, rune) ↔
      size = 1 ∧ represents rune ∧ byte rune = first) :
    Codes encoding represents fun rune => [byte rune] where
  scalar := scalar
  encodes := encodes
  refuses := by
    intro rune without capacity
    by_cases isScalar : IsScalar rune
    · exact refuses rune isScalar without capacity
    · exact textEncodeRune_scalar _ capacity (Or.inr isScalar)
  reads := by
    intro rune rest isRune
    exact (reads _ _ _ _).mpr ⟨rfl, isRune, rfl⟩
  sound := by
    intro data size rune read
    cases data with
    | nil => cases read
    | cons first rest =>
      obtain ⟨isOne, isRune, isByte⟩ := (reads _ _ _ _).mp read
      rw [isOne, isByte]
      exact ⟨isRune, rest, rfl, rfl⟩
  nonempty := fun _ => List.cons_ne_nil _ _
  short := fun _ => (by decide : 1 ≤ 4)

theorem codes_ascii : Codes textEncodingAscii (· ≤ 0x7F) fun rune => [UInt8.ofNat rune] := by
  apply codes_byte UInt8.ofNat
  · intro rune small
    unfold IsScalar
    omega
  · intro rune small capacity
    unfold textEncodeRune
    rw [if_neg (by omega), if_neg (by decide), if_pos (Or.inl rfl), if_neg]
    · rfl
    · rintro (large | other)
      · omega
      · exact absurd other.1 (by decide)
  · intro rune scalar large capacity
    unfold textEncodeRune
    rw [if_neg (notSurrogate scalar), if_neg (by decide), if_pos (Or.inl rfl),
      if_pos (Or.inl ⟨rfl, by omega⟩)]
  · intro first rest rune size
    have isByte : textDecodeRune (first :: rest) textEncodingAscii =
        if first > 0x7F then none else some (1, first.toNat) := rfl
    have less := first.toNat_lt
    have bound : first > 0x7F ↔ 127 < first.toNat := UInt8.lt_iff_toNat_lt
    rw [isByte, ← UInt8.toNat_inj, UInt8.toNat_ofNat']
    by_cases large : first > 0x7F
    · rw [if_pos large]
      have high := bound.mp large
      simp only [reduceCtorEq, false_iff]
      omega
    · rw [if_neg large]
      have low := mt bound.mpr large
      simp only [Option.some.injEq, Prod.mk.injEq]
      omega

theorem codes_latin1 : Codes textEncodingLatin1 (· ≤ 0xFF) fun rune => [UInt8.ofNat rune] := by
  apply codes_byte UInt8.ofNat
  · intro rune small
    unfold IsScalar
    omega
  · intro rune small capacity
    unfold textEncodeRune
    rw [if_neg (by omega), if_neg (by decide), if_pos (Or.inr rfl), if_neg]
    · rfl
    · rintro (other | large)
      · exact absurd other.1 (by decide)
      · omega
  · intro rune scalar large capacity
    unfold textEncodeRune
    rw [if_neg (notSurrogate scalar), if_neg (by decide), if_pos (Or.inr rfl),
      if_pos (Or.inr ⟨rfl, by omega⟩)]
  · intro first rest rune size
    have isByte : textDecodeRune (first :: rest) textEncodingLatin1 = some (1, first.toNat) := rfl
    have less := first.toNat_lt
    rw [isByte, ← UInt8.toNat_inj, UInt8.toNat_ofNat']
    simp only [Option.some.injEq, Prod.mk.injEq]
    omega

theorem testBit_mask (values : List Nat) (mask n : Nat) :
    (values.foldl (fun mask value => mask ||| 1 <<< value) mask).testBit n = true ↔
      mask.testBit n = true ∨ n ∈ values := by
  induction values generalizing mask with
  | nil => simp
  | cons value rest ih =>
    have isBit : (1 <<< value).testBit n = true ↔ n = value := by
      rw [Nat.one_shiftLeft, Nat.testBit_two_pow, decide_eq_true_iff]
      exact eq_comm
    rw [List.foldl_cons, ih, Nat.testBit_or, Bool.or_eq_true, isBit, List.mem_cons, or_assoc]

theorem ebcdic_length : textEbcdic037ToRune.length = 256 := by decide +kernel

theorem ebcdic_perm : (List.range 256).Perm textEbcdic037ToRune := by
  have whole : textEbcdic037ToRune.foldl (fun mask value => mask ||| 1 <<< value) 0 =
      2 ^ 256 - 1 := by decide +kernel
  have subset : List.range 256 ⊆ textEbcdic037ToRune := by
    intro n isIn
    have isBit := testBit_mask textEbcdic037ToRune 0 n
    rw [whole, Nat.testBit_two_pow_sub_one] at isBit
    simpa using isBit.mp (decide_eq_true (List.mem_range.mp isIn))
  apply (List.subperm_of_subset List.nodup_range subset).perm_of_length_le
  rw [ebcdic_length, List.length_range]

theorem ebcdic_mem : rune ∈ textEbcdic037ToRune ↔ rune ≤ 0xFF := by
  rw [← (ebcdic_perm).mem_iff, List.mem_range]
  omega

theorem ebcdic_index (n : Nat) (less : n < 256) : textEbcdic037ToRune.getD n 0 ≤ 0xFF ∧
    textEbcdic037ToRune.findIdx (· == textEbcdic037ToRune.getD n 0) = n := by
  have fits : n < textEbcdic037ToRune.length := by
    rw [ebcdic_length]
    exact less
  have nodup := (ebcdic_perm).nodup_iff.mp List.nodup_range
  rw [List.getD_eq_getElem _ _ fits]
  exact ⟨(ebcdic_mem).mp (List.getElem_mem fits), nodup.idxOf_getElem n fits⟩

theorem ebcdic_byte (small : rune ≤ 0xFF) :
    textEbcdic037ToRune.findIdx (· == rune) < 256 ∧
      textEbcdic037ToRune.getD (textEbcdic037ToRune.findIdx (· == rune)) 0 = rune := by
  have fits : textEbcdic037ToRune.idxOf rune < textEbcdic037ToRune.length :=
    List.idxOf_lt_length_iff.mpr ((ebcdic_mem).mpr small)
  constructor
  · rw [← ebcdic_length]
    exact fits
  · exact (List.getD_eq_getElem _ _ fits).trans (List.getElem_idxOf fits)

theorem ebcdic_none (large : ¬rune ≤ 0xFF) : textEbcdic037ToRune.findIdx (· == rune) = 256 := by
  rw [← ebcdic_length]
  apply List.findIdx_eq_length_of_false
  intro value isIn
  have small := (ebcdic_mem).mp isIn
  exact beq_eq_false_iff_ne.mpr (by omega)

theorem codes_ebcdic037 : Codes textEncodingEbcdic037 (· ≤ 0xFF) fun rune =>
    [UInt8.ofNat (textEbcdic037ToRune.findIdx (· == rune))] := by
  apply codes_byte fun rune => UInt8.ofNat (textEbcdic037ToRune.findIdx (· == rune))
  · intro rune small
    unfold IsScalar
    omega
  · intro rune small capacity
    have less := (ebcdic_byte small).1
    unfold textEncodeRune
    rw [if_neg (by omega), if_neg (by decide), if_neg (by decide), if_pos rfl]
    dsimp only
    rw [Int.toNat_natCast, if_neg (by omega)]
  · intro rune scalar large capacity
    unfold textEncodeRune
    rw [if_neg (notSurrogate scalar), if_neg (by decide), if_neg (by decide), if_pos rfl]
    dsimp only
    rw [Int.toNat_natCast, if_pos (ebcdic_none large)]
  · intro first rest rune size
    have isByte : textDecodeRune (first :: rest) textEncodingEbcdic037 =
      some (1, textEbcdic037ToRune.getD first.toNat 0) := rfl
    obtain ⟨small, isIndex⟩ := ebcdic_index first.toNat first.toNat_lt
    rw [isByte]
    simp only [Option.some.injEq, Prod.mk.injEq]
    constructor
    · rintro ⟨rfl, rfl⟩
      rw [isIndex, UInt8.ofNat_toNat]
      exact ⟨rfl, small, rfl⟩
    · rintro ⟨rfl, isRune, rfl⟩
      obtain ⟨less, same⟩ := ebcdic_byte isRune
      rw [UInt8.toNat_ofNat', Nat.mod_eq_of_lt less]
      exact ⟨rfl, same⟩

/-- An encoding in units of two or four bytes, which is the one of a branch. -/
theorem codes_units {encoding : Int} (word : Nat → List UInt8)
    (decode : List UInt8 → Option (Nat × Nat)) (long : ∀ rune, (word rune).length = 2 ∨
      (word rune).length = 4)
    (encodes : ∀ rune : Nat, IsScalar rune → ∀ capacity,
      textEncodeRune rune encoding capacity = sized (word rune) capacity)
    (decodes : ∀ first rest,
      textDecodeRune (first :: rest) encoding = decode (first :: rest))
    (reads : ∀ rune rest, IsScalar rune →
      decode (word rune ++ rest) = some ((word rune).length, rune))
    (sound : ∀ data size rune, decode data = some (size, rune) →
      IsScalar rune ∧ ∃ rest, data = word rune ++ rest ∧ (word rune).length = size) :
    Codes encoding IsScalar word where
  scalar := fun _ scalar => scalar
  encodes := encodes
  refuses := by
    intro rune without capacity
    exact textEncodeRune_scalar _ capacity (Or.inr without)
  reads := by
    intro rune rest scalar
    have read := reads rune rest scalar
    have size := long rune
    cases isText : word rune ++ rest with
    | nil =>
      rw [(List.append_eq_nil_iff.mp isText).1] at size
      exact absurd size (by decide)
    | cons first more =>
      rw [isText] at read
      rw [decodes]
      exact read
  sound := by
    intro data size rune read
    apply sound
    cases data with
    | nil => cases read
    | cons first rest => rw [← decodes, read]
  nonempty := by
    intro rune
    apply List.ne_nil_of_length_pos
    have size := long rune
    omega
  short := by
    intro rune
    have size := long rune
    omega

theorem bytes16_length (big : Bool) (unit : Nat) : (bytes16 big unit).length = 2 := by
  unfold bytes16
  split <;> rfl

theorem bytes32_length (big : Bool) (rune : Nat) : (bytes32 big rune).length = 4 := by
  unfold bytes32
  split <;> rfl

theorem encodeUtf16_length (big : Bool) (rune : Nat) :
    (encodeUtf16 big rune).length = 2 ∨ (encodeUtf16 big rune).length = 4 := by
  unfold encodeUtf16
  split
  · exact Or.inl (bytes16_length _ _)
  · right
    rw [List.length_append, bytes16_length, bytes16_length]

theorem codes_utf16Le : Codes textEncodingUtf16Le IsScalar (encodeUtf16 false) :=
  codes_units (encodeUtf16 false) (decodeUtf16 false) (encodeUtf16_length false)
    (by
      intro rune scalar capacity
      unfold textEncodeRune
      rw [if_neg (notSurrogate scalar)]
      rfl)
    (fun _ _ => rfl) (fun _ rest scalar => decodeUtf16_reads false scalar rest)
    fun _ _ _ => decodeUtf16_sound

theorem codes_utf16Be : Codes textEncodingUtf16Be IsScalar (encodeUtf16 true) :=
  codes_units (encodeUtf16 true) (decodeUtf16 true) (encodeUtf16_length true)
    (by
      intro rune scalar capacity
      unfold textEncodeRune
      rw [if_neg (notSurrogate scalar)]
      rfl)
    (fun _ _ => rfl) (fun _ rest scalar => decodeUtf16_reads true scalar rest)
    fun _ _ _ => decodeUtf16_sound

theorem codes_utf32Le : Codes textEncodingUtf32Le IsScalar (bytes32 false) :=
  codes_units (bytes32 false) (decodeUtf32 false) (fun rune => Or.inr (bytes32_length false rune))
    (by
      intro rune scalar capacity
      unfold textEncodeRune
      rw [if_neg (notSurrogate scalar)]
      rfl)
    (fun _ _ => rfl) (fun _ rest scalar => decodeUtf32_reads false scalar rest)
    fun _ _ _ => decodeUtf32_sound

theorem codes_utf32Be : Codes textEncodingUtf32Be IsScalar (bytes32 true) :=
  codes_units (bytes32 true) (decodeUtf32 true) (fun rune => Or.inr (bytes32_length true rune))
    (by
      intro rune scalar capacity
      unfold textEncodeRune
      rw [if_neg (notSurrogate scalar)]
      rfl)
    (fun _ _ => rfl) (fun _ rest scalar => decodeUtf32_reads true scalar rest)
    fun _ _ _ => decodeUtf32_sound

end Aholyc.Text
