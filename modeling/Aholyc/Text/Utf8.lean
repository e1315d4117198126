import Mathlib.Data.List.Infix
import Mathlib.Tactic.Common

/-!
# UTF-8 (lib/text/utf8.HC)

`utf8DecodeRune` reads one code point as the library does, by ranges of the
leading and the trailing bytes. It accepts exactly the encodings of the
Unicode scalar values, which are the values of `Char`.
-/

namespace Aholyc.Text

/-- `value >= low && value <= high` on bytes. -/
def within (low high value : UInt8) : Bool := low ≤ value && value ≤ high

/-- The bytes read and the rune; `none` is the source's zero. -/
def utf8DecodeRune (data : List UInt8) : Option (Nat × Nat) :=
  match data with
  | [] => none
  | first :: rest =>
      if first < 0x80 then some (1, first.toNat)
      else if within 0xC2 0xDF first then
        match rest with
        | second :: _ =>
            if within 0x80 0xBF second then
              some (2, (first.toNat &&& 0x1F) <<< 6 ||| (second.toNat &&& 0x3F))
            else none
        | _ => none
      else if within 0xE0 0xEF first then
        match rest with
        | second :: third :: _ =>
            if !within 0x80 0xBF second || !within 0x80 0xBF third ||
                first = 0xE0 && second < 0xA0 || first = 0xED && second ≥ 0xA0 then none
            else some (3, (first.toNat &&& 15) <<< 12 ||| (second.toNat &&& 0x3F) <<< 6 |||
              (third.toNat &&& 0x3F))
        | _ => none
      else if within 0xF0 0xF4 first then
        match rest with
        | second :: third :: fourth :: _ =>
            if !within 0x80 0xBF second || !within 0x80 0xBF third || !within 0x80 0xBF fourth ||
                first = 0xF0 && second < 0x90 || first = 0xF4 && second > 0x8F then none
            else some (4, (first.toNat &&& 7) <<< 18 ||| (second.toNat &&& 0x3F) <<< 12 |||
              (third.toNat &&& 0x3F) <<< 6 ||| (fourth.toNat &&& 0x3F))
        | _ => none
      else none

theorem byte_cases {P : UInt8 → Prop} (all : ∀ n < 256, P (UInt8.ofNat n)) (byte : UInt8) :
    P byte := by
  have holds := all byte.toNat byte.toNat_lt
  rwa [UInt8.ofNat_toNat] at holds

theorem join_two (a b : Nat) :
    (a &&& 0x1F) <<< 6 ||| (b &&& 0x3F) = a % 32 * 64 + b % 64 := by
  have low : b &&& 0x3F < 2 ^ 6 := Nat.and_lt_two_pow b (by decide)
  rw [← Nat.shiftLeft_add_eq_or_of_lt low, Nat.shiftLeft_eq,
    Nat.and_two_pow_sub_one_eq_mod a 5, Nat.and_two_pow_sub_one_eq_mod b 6]

theorem join_three (a b c : Nat) :
    (a &&& 15) <<< 12 ||| (b &&& 0x3F) <<< 6 ||| (c &&& 0x3F) =
      a % 16 * 4096 + b % 64 * 64 + c % 64 := by
  have low : c &&& 0x3F < 2 ^ 6 := Nat.and_lt_two_pow c (by decide)
  have middle : (b &&& 0x3F) <<< 6 ||| (c &&& 0x3F) = b % 64 * 64 + c % 64 := by
    rw [← Nat.shiftLeft_add_eq_or_of_lt low, Nat.shiftLeft_eq,
      Nat.and_two_pow_sub_one_eq_mod b 6, Nat.and_two_pow_sub_one_eq_mod c 6]
  have small : b % 64 * 64 + c % 64 < 2 ^ 12 := by omega
  rw [Nat.or_assoc, middle, ← Nat.shiftLeft_add_eq_or_of_lt small, Nat.shiftLeft_eq,
    Nat.and_two_pow_sub_one_eq_mod a 4]
  omega

theorem join_four (a b c d : Nat) :
    (a &&& 7) <<< 18 ||| (b &&& 0x3F) <<< 12 ||| (c &&& 0x3F) <<< 6 ||| (d &&& 0x3F) =
      a % 8 * 262144 + b % 64 * 4096 + c % 64 * 64 + d % 64 := by
  have low : d &&& 0x3F < 2 ^ 6 := Nat.and_lt_two_pow d (by decide)
  have last : (c &&& 0x3F) <<< 6 ||| (d &&& 0x3F) = c % 64 * 64 + d % 64 := by
    rw [← Nat.shiftLeft_add_eq_or_of_lt low, Nat.shiftLeft_eq,
      Nat.and_two_pow_sub_one_eq_mod c 6, Nat.and_two_pow_sub_one_eq_mod d 6]
  have middle : (b &&& 0x3F) <<< 12 ||| (c % 64 * 64 + d % 64) =
      b % 64 * 4096 + (c % 64 * 64 + d % 64) := by
    have small : c % 64 * 64 + d % 64 < 2 ^ 12 := by omega
    rw [← Nat.shiftLeft_add_eq_or_of_lt small, Nat.shiftLeft_eq,
      Nat.and_two_pow_sub_one_eq_mod b 6]
  have small : b % 64 * 4096 + (c % 64 * 64 + d % 64) < 2 ^ 18 := by omega
  rw [Nat.or_assoc, Nat.or_assoc, last, middle, ← Nat.shiftLeft_add_eq_or_of_lt small,
    Nat.shiftLeft_eq, Nat.and_two_pow_sub_one_eq_mod a 3]
  omega

def charOf (rune : Nat) (scalar : rune < 0xD800 ∨ 0xDFFF < rune ∧ rune < 0x110000) : Char :=
  Char.ofNatAux rune scalar

theorem charOf_val (rune : Nat) (scalar : rune < 0xD800 ∨ 0xDFFF < rune ∧ rune < 0x110000) :
    (charOf rune scalar).val.toNat = rune := rfl

def codeUnits (rune : Nat) : List Nat :=
  if rune ≤ 0x7F then [rune]
  else if rune ≤ 0x7FF then [rune / 64 + 0xC0, rune % 64 + 0x80]
  else if rune ≤ 0xFFFF then [rune / 4096 + 0xE0, rune / 64 % 64 + 0x80, rune % 64 + 0x80]
  else [rune / 262144 + 0xF0, rune / 4096 % 64 + 0x80, rune / 64 % 64 + 0x80, rune % 64 + 0x80]

theorem char_lt (ch : Char) : ch.val.toNat < 0x110000 := by
  have bound := ch.valid
  simp only [UInt32.isValidChar, Nat.isValidChar] at bound
  omega

theorem encode_toNat (ch : Char) :
    (String.utf8EncodeChar ch).map UInt8.toNat = codeUnits ch.val.toNat := by
  have bound := char_lt ch
  simp only [String.utf8EncodeChar, codeUnits]
  split
  · simp only [List.map_cons, List.map_nil, UInt8.toNat_ofNat', List.cons.injEq, and_true]
    omega
  split
  · simp only [List.map_cons, List.map_nil, UInt8.toNat_ofNat', List.cons.injEq, and_true]
    omega
  · split
    · simp only [List.map_cons, List.map_nil, UInt8.toNat_ofNat', List.cons.injEq, and_true]
      omega
    · simp only [List.map_cons, List.map_nil, UInt8.toNat_ofNat', List.cons.injEq, and_true]
      omega

theorem encode_of_units {ch : Char} {bytes : List UInt8}
    (units : bytes.map UInt8.toNat = codeUnits ch.val.toNat) :
    String.utf8EncodeChar ch = bytes := by
  have injective : Function.Injective (List.map UInt8.toNat) :=
    List.map_injective_iff.mpr fun a b same => UInt8.toNat_inj.mp same
  exact injective ((encode_toNat ch).trans units.symm)

variable {rune : Nat}

theorem read_of_units (bytes rest : List UInt8)
    (scalar : rune < 0xD800 ∨ 0xDFFF < rune ∧ rune < 0x110000)
    (units : bytes.map UInt8.toNat = codeUnits rune) :
    ∃ ch : Char, ch.val.toNat = rune ∧ (String.utf8EncodeChar ch).length = bytes.length ∧
      String.utf8EncodeChar ch <+: bytes ++ rest := by
  have value := charOf_val rune scalar
  have same : String.utf8EncodeChar (charOf rune scalar) = bytes := by
    apply encode_of_units
    rw [value, units]
  refine ⟨charOf rune scalar, value, by rw [same], ?_⟩
  rw [same]
  exact List.prefix_append bytes rest

/-- What the decoder reads is the encoding of the rune it returns. -/
theorem utf8DecodeRune_sound {data : List UInt8} {count : Nat}
    (read : utf8DecodeRune data = some (count, rune)) :
    ∃ ch : Char, ch.val.toNat = rune ∧ (String.utf8EncodeChar ch).length = count ∧
      String.utf8EncodeChar ch <+: data := by
  unfold utf8DecodeRune at read
  simp only [within, UInt8.lt_iff_toNat_lt, UInt8.le_iff_toNat_le, ge_iff_le, gt_iff_lt,
    ← UInt8.toNat_inj, join_two, join_three, join_four, Bool.and_eq_true, decide_eq_true_eq,
    UInt8.reduceToNat, Bool.or_eq_true, Bool.not_eq_true', Bool.and_eq_false_imp,
    decide_eq_false_iff_not] at read
  split at read
  next => cases read
  next first rest =>
    split at read
    next ascii =>
      cases read
      apply read_of_units [first] rest (by omega)
      simp only [codeUnits, List.map_cons, List.map_nil]
      rw [if_pos (by omega)]
    next =>
      split at read
      next two =>
        split at read
        next second rest =>
          split at read
          next tail =>
            cases read
            apply read_of_units [first, second] rest (by omega)
            simp only [codeUnits, List.map_cons, List.map_nil]
            rw [if_neg (by omega), if_pos (by omega)]
            simp only [List.cons.injEq, and_true]
            omega
          next => cases read
        next => cases read
      next =>
        split at read
        next three =>
          split at read
          next second third rest =>
            split at read
            next => cases read
            next tail =>
              cases read
              apply read_of_units [first, second, third] rest (by omega)
              simp only [codeUnits, List.map_cons, List.map_nil]
              rw [if_neg (by omega), if_neg (by omega), if_pos (by omega)]
              simp only [List.cons.injEq, and_true]
              omega
          next => cases read
        next =>
          split at read
          next four =>
            split at read
            next second third fourth rest =>
              split at read
              next => cases read
              next tail =>
                cases read
                apply read_of_units [first, second, third, fourth] rest (by omega)
                simp only [codeUnits, List.map_cons, List.map_nil]
                rw [if_neg (by omega), if_neg (by omega), if_neg (by omega)]
                simp only [List.cons.injEq, and_true]
                omega
            next => cases read
          next => cases read

/-- Every encoding of a scalar value is read, whatever follows it. -/
theorem utf8DecodeRune_complete (ch : Char) (rest : List UInt8) :
    utf8DecodeRune (String.utf8EncodeChar ch ++ rest) =
      some ((String.utf8EncodeChar ch).length, ch.val.toNat) := by
  have bound := char_lt ch
  have valid := ch.valid
  simp only [UInt32.isValidChar, Nat.isValidChar] at valid
  have units := encode_toNat ch
  generalize String.utf8EncodeChar ch = bytes at units ⊢
  generalize ch.val.toNat = rune at *
  simp only [codeUnits] at units
  unfold utf8DecodeRune
  simp only [within, UInt8.lt_iff_toNat_lt, UInt8.le_iff_toNat_le, ge_iff_le, gt_iff_lt,
    ← UInt8.toNat_inj, join_two, join_three, join_four, Bool.and_eq_true, decide_eq_true_eq,
    UInt8.reduceToNat, Bool.or_eq_true, Bool.not_eq_true', Bool.and_eq_false_imp,
    decide_eq_false_iff_not]
  split at units
  next small =>
    simp only [List.map_eq_cons_iff, List.map_eq_nil_iff] at units
    obtain ⟨first, _, rfl, one, rfl⟩ := units
    simp only [List.cons_append, List.nil_append]
    rw [if_pos (by omega), one]
    rfl
  next =>
    split at units
    next small =>
      simp only [List.map_eq_cons_iff, List.map_eq_nil_iff] at units
      obtain ⟨first, _, rfl, one, second, _, rfl, two, rfl⟩ := units
      simp only [List.cons_append, List.nil_append]
      rw [if_neg (by omega), if_pos (by omega), if_pos (by omega), one, two]
      simp only [List.length_cons, List.length_nil, Option.some.injEq, Prod.mk.injEq, true_and]
      omega
    next =>
      split at units
      next small =>
        simp only [List.map_eq_cons_iff, List.map_eq_nil_iff] at units
        obtain ⟨first, _, rfl, one, second, _, rfl, two, third, _, rfl, three, rfl⟩ := units
        simp only [List.cons_append, List.nil_append]
        rw [if_neg (by omega), if_neg (by omega), if_pos (by omega), if_neg (by omega), one, two,
          three]
        simp only [List.length_cons, List.length_nil, Option.some.injEq, Prod.mk.injEq, true_and]
        omega
      next =>
        simp only [List.map_eq_cons_iff, List.map_eq_nil_iff] at units
        obtain ⟨first, _, rfl, one, second, _, rfl, two, third, _, rfl, three, fourth, _, rfl,
          four, rfl⟩ := units
        simp only [List.cons_append, List.nil_append]
        rw [if_neg (by omega), if_neg (by omega), if_neg (by omega), if_pos (by omega),
          if_neg (by omega), one, two, three, four]
        simp only [List.length_cons, List.length_nil, Option.some.injEq, Prod.mk.injEq, true_and]
        omega

theorem utf8DecodeRune_positive {data : List UInt8} {count : Nat}
    (read : utf8DecodeRune data = some (count, rune)) : 0 < count := by
  obtain ⟨ch, _, size, _⟩ := utf8DecodeRune_sound read
  rw [← size]
  exact List.length_pos_of_ne_nil String.utf8EncodeChar_ne_nil

/-- An ASCII character is its own encoding; all others start beyond ASCII. -/
theorem encode_head (ch : Char) : ∃ first rest, String.utf8EncodeChar ch = first :: rest ∧
    (first.toNat = ch.val.toNat ∨ 0x80 ≤ first.toNat ∧ 0x80 ≤ ch.val.toNat) := by
  cases text : String.utf8EncodeChar ch with
  | nil => exact absurd text String.utf8EncodeChar_ne_nil
  | cons first rest =>
    refine ⟨first, rest, rfl, ?_⟩
    have units := encode_toNat ch
    rw [text, List.map_cons, codeUnits] at units
    split at units
    · exact Or.inl (List.cons.inj units).1
    right
    split at units
    · have head := (List.cons.inj units).1
      omega
    · split at units
      · have head := (List.cons.inj units).1
        omega
      · have head := (List.cons.inj units).1
        omega

theorem codeUnits_continue (bound : rune < 0x110000) :
    ∃ first rest, codeUnits rune = first :: rest ∧ (first < 0x80 ∨ 0xC0 ≤ first) ∧
      ∀ unit ∈ rest, 0x80 ≤ unit ∧ unit ≤ 0xBF := by
  unfold codeUnits
  split
  · exact ⟨_, _, rfl, by omega, by simp⟩
  split
  · refine ⟨_, _, rfl, by omega, ?_⟩
    simp only [List.mem_singleton, forall_eq]
    omega
  · split
    · refine ⟨_, _, rfl, by omega, ?_⟩
      simp only [List.mem_cons, List.not_mem_nil, or_false, forall_eq_or_imp, forall_eq]
      omega
    · refine ⟨_, _, rfl, by omega, ?_⟩
      simp only [List.mem_cons, List.not_mem_nil, or_false, forall_eq_or_imp, forall_eq]
      omega

/-- A byte in the middle of an encoding is a continuation byte; the first is not. -/
theorem encode_continues (ch : Char) : ∃ first rest, String.utf8EncodeChar ch = first :: rest ∧
    (first.toNat < 0x80 ∨ 0xC0 ≤ first.toNat) ∧
    ∀ byte ∈ rest, 0x80 ≤ byte.toNat ∧ byte.toNat ≤ 0xBF := by
  obtain ⟨head, tail, units, isHead, isTail⟩ := codeUnits_continue (char_lt ch)
  rw [← encode_toNat, List.map_eq_cons_iff] at units
  obtain ⟨first, rest, text, rfl, rfl⟩ := units
  refine ⟨first, rest, text, isHead, ?_⟩
  intro byte inRest
  exact isTail _ (List.mem_map_of_mem inRest)

/-! ## Texts -/

def encode (text : List Char) : List UInt8 := text.flatMap String.utf8EncodeChar

@[simp] theorem encode_nil : encode [] = [] := rfl

@[simp] theorem encode_cons (ch : Char) (text : List Char) :
    encode (ch :: text) = String.utf8EncodeChar ch ++ encode text := rfl

@[simp] theorem encode_append (one two : List Char) :
    encode (one ++ two) = encode one ++ encode two :=
  List.flatMap_append

@[simp] theorem encode_eq_nil {text : List Char} : encode text = [] ↔ text = [] := by
  cases text with
  | nil => simp
  | cons ch rest => simp

theorem encode_length_le (text : List Char) : text.length ≤ (encode text).length := by
  induction text with
  | nil => exact Nat.le_refl 0
  | cons ch rest ih =>
    have positive := List.length_pos_of_ne_nil (String.utf8EncodeChar_ne_nil (c := ch))
    rw [encode_cons, List.length_append, List.length_cons]
    omega

theorem utf8DecodeRune_encode (ch : Char) (text : List Char) :
    utf8DecodeRune (encode (ch :: text)) =
      some ((String.utf8EncodeChar ch).length, ch.val.toNat) :=
  utf8DecodeRune_complete ch (encode text)

/-- A prefix of the text is known by its number of bytes. -/
theorem encode_prefix_inj {one two rest more : List Char} (same : one ++ rest = two ++ more)
    (size : (encode one).length = (encode two).length) : one = two := by
  induction one generalizing two with
  | nil =>
    rw [encode_nil, List.length_nil] at size
    exact (encode_eq_nil.mp (List.length_eq_zero_iff.mp size.symm)).symm
  | cons ch one ih =>
    cases two with
    | nil =>
      rw [encode_nil, List.length_nil, List.length_eq_zero_iff, encode_eq_nil] at size
      exact size
    | cons other two =>
      rw [List.cons_append, List.cons_append] at same
      obtain ⟨rfl, tails⟩ := List.cons.inj same
      rw [encode_cons, encode_cons, List.length_append, List.length_append] at size
      rw [ih tails (by omega)]

end Aholyc.Text
