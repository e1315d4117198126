import Aholyc.Lib.Pieces
import Aholyc.Text.Runes

/-!
# Code points in a text (lib/text/utf8.HC)

The encodings of the code points are the pieces of the valid texts: the trailing bytes
are known by their two highest bits, and no encoding begins with another.
-/

namespace Aholyc.Text

open Aholyc.Lib

def isTrailing (byte : UInt8) : Bool := byte &&& 0xC0 == 0x80

theorem isTrailing_iff (byte : UInt8) : isTrailing byte = true ↔ Trails byte := by
  revert byte
  unfold Trails
  apply byte_cases
  decide +kernel

theorem isTrailing_false {byte : UInt8} (other : byte.toNat / 64 ≠ 2) :
    isTrailing byte = false := by
  rw [Bool.eq_false_iff]
  intro isTrailing
  exact other ((isTrailing_iff byte).mp isTrailing)

theorem WellFormed.first {bytes : List UInt8} {rune : Nat} (wellFormed : WellFormed bytes rune) :
    ∃ a rest, bytes = a :: rest ∧ isTrailing a = false ∧ ∀ b ∈ rest, isTrailing b = true := by
  cases wellFormed with
  | one a small =>
    refine ⟨a, [], rfl, isTrailing_false (by omega), ?_⟩
    intro b member
    cases member
  | two a b lead trails =>
    refine ⟨a, [b], rfl, isTrailing_false (by omega), ?_⟩
    rw [List.forall_mem_singleton]
    exact (isTrailing_iff b).mpr trails
  | three a b c _ lead second third =>
    refine ⟨a, [b, c], rfl, isTrailing_false (by omega), ?_⟩
    rw [List.forall_mem_cons, List.forall_mem_singleton]
    exact ⟨(isTrailing_iff b).mpr second, (isTrailing_iff c).mpr third⟩
  | four a b c d _ lead second third fourth =>
    refine ⟨a, [b, c, d], rfl, isTrailing_false (by omega), ?_⟩
    rw [List.forall_mem_cons, List.forall_mem_cons, List.forall_mem_singleton]
    exact ⟨(isTrailing_iff b).mpr second, (isTrailing_iff c).mpr third,
      (isTrailing_iff d).mpr fourth⟩

def utf8 : Pieces UInt8 where
  isPiece := fun bytes => ∃ rune, WellFormed bytes rune
  later := isTrailing
  first := by
    rintro bytes ⟨rune, wellFormed⟩
    exact wellFormed.first
  whole := by
    rintro bytes more ⟨rune, wellFormed⟩ ⟨rune', longer⟩
    have short := utf8DecodeRune_iff.mpr ⟨bytes, more, rfl, wellFormed, rfl⟩
    have long := utf8DecodeRune_iff.mpr ⟨bytes ++ more, [], (List.append_nil _).symm, longer, rfl⟩
    rw [short, Option.some.injEq, Prod.mk.injEq, List.length_append] at long
    apply List.eq_nil_of_length_eq_zero
    omega

theorem ascii_piece {byte : UInt8} (small : byte.toNat < 0x80) : utf8.isPiece [byte] :=
  ⟨_, .one byte small⟩

theorem ascii_text {bytes : List UInt8} (small : bytes.all (·.toNat < 0x80) = true) :
    utf8.Text bytes := by
  induction bytes with
  | nil => exact .nil
  | cons byte bytes ih =>
    rw [List.all_cons, Bool.and_eq_true, decide_eq_true_iff] at small
    exact .cons (ascii_piece small.1) (ih small.2)

/-! ## Sequences of code points -/

theorem encodeChar_piece (ch : Char) : utf8.isPiece (String.utf8EncodeChar ch) :=
  ⟨_, char_wellFormed ch⟩

theorem encode_text (text : List Char) : utf8.Text (encode text) := by
  induction text with
  | nil => exact .nil
  | cons ch text ih =>
    rw [encode_cons]
    exact .cons (encodeChar_piece ch) ih

theorem text_encode {data : List UInt8} (isText : utf8.Text data) :
    ∃ text, encode text = data := by
  induction isText with
  | nil => exact ⟨[], rfl⟩
  | cons isPiece _ ih =>
    obtain ⟨rune, wellFormed⟩ := isPiece
    obtain ⟨scalar, units⟩ := wellFormed_char wellFormed
    obtain ⟨ch, value⟩ := scalar.char
    obtain ⟨text, isRest⟩ := ih
    rw [← value] at units
    refine ⟨ch :: text, ?_⟩
    rw [encode_cons, encode_of_units units, isRest]

variable {text : List Char} {i j : Nat}

theorem encode_injective {other : List Char} (same : encode text = encode other) :
    text = other := by
  induction text generalizing other with
  | nil => exact (encode_eq_nil.mp same.symm).symm
  | cons ch text ih =>
    cases other with
    | nil => exact encode_eq_nil.mp same
    | cons ch' other =>
      have read := utf8DecodeRune_encode ch text
      rw [same, utf8DecodeRune_encode, Option.some.injEq, Prod.mk.injEq, UInt32.toNat_inj,
        Char.val_inj] at read
      rw [read.2, encode_cons, encode_cons, List.append_cancel_left_eq] at same
      rw [read.2, ih same]

theorem encode_singleton (ch : Char) : encode [ch] = String.utf8EncodeChar ch := by
  rw [encode_cons, encode_nil, List.append_nil]

theorem encodeChar_eq (ch : Char) : String.utf8EncodeChar ch = runeBytes ch.val.toNat :=
  (char_wellFormed ch).eq_runeBytes

theorem encodeChar_length (ch : Char) :
    1 ≤ (String.utf8EncodeChar ch).length ∧ (String.utf8EncodeChar ch).length ≤ 4 := by
  rw [encodeChar_eq]
  unfold runeBytes
  rw [List.length_map, codeUnits_length]
  split
  · omega
  · split
    · omega
    · split
      · omega
      · omega

theorem encode_take_lt (less : i < j) (inside : j ≤ text.length) :
    (encode (text.take i)).length < (encode (text.take j)).length := by
  induction j with
  | zero => omega
  | succ j ih =>
    have step : (encode (text.take j)).length < (encode (text.take (j + 1))).length := by
      rw [List.take_add_one, List.getElem?_eq_getElem (by omega), Option.toList_some,
        encode_append, encode_singleton, List.length_append]
      have positive := (encodeChar_length text[j]).1
      omega
    by_cases same : i = j
    · rw [same]
      exact step
    · exact (ih (by omega) (by omega)).trans step

theorem encode_take_inj (inside : i ≤ text.length) (inside' : j ≤ text.length)
    (same : (encode (text.take i)).length = (encode (text.take j)).length) : i = j := by
  by_contra other
  by_cases less : i < j
  · have shorter := encode_take_lt less inside'
    omega
  · have shorter : (encode (text.take j)).length < (encode (text.take i)).length :=
      encode_take_lt (by omega) inside
    omega

theorem encode_take_le (le : i ≤ j) (inside : j ≤ text.length) :
    (encode (text.take i)).length ≤ (encode (text.take j)).length := by
  by_cases same : i = j
  · rw [same]
  · exact Nat.le_of_lt (encode_take_lt (by omega) inside)

/-- The boundaries of a text are in front of its code points and at its end. -/
theorem boundary_encode_iff {place : Nat} :
    utf8.Boundary (encode text) place ↔
      ∃ i ≤ text.length, place = (encode (text.take i)).length := by
  constructor
  · intro boundary
    obtain ⟨front, isFront⟩ := text_encode boundary.front
    obtain ⟨back, isBack⟩ := text_encode boundary.back
    have isPlace : place = (encode front).length := by
      rw [isFront, List.length_take, Nat.min_eq_left boundary.le]
    have whole : encode (front ++ back) = encode text := by
      rw [encode_append, isFront, isBack, List.take_append_drop]
    have isText : front ++ back = text := encode_injective whole
    refine ⟨front.length, ?_, ?_⟩
    · rw [← isText, List.length_append]
      omega
    · rw [← isText, List.take_left, isPlace]
  · rintro ⟨i, inside, rfl⟩
    have split : encode text = encode (text.take i) ++ encode (text.drop i) := by
      rw [← encode_append, List.take_append_drop]
    rw [split]
    exact Pieces.boundary_append (encode_text _) (encode_text _)

end Aholyc.Text
