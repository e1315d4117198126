import Mathlib.Algebra.Order.Ring.Nat
import Aholyc.Text.Utf8

/-!
# Runes of UTF-8 (lib/text/utf8.HC)

The encoder and the validator beside the decoder. The well-formed sequences are given by
their bits: a leading byte that tells the length, trailing bytes, and a value that needs this
length and is a code point, but no surrogate.
-/

namespace Aholyc.Text

/-- `Utf8EncodeRune`: what it returns and the bytes that it puts out. Without an output there is
no capacity. -/
def utf8EncodeRune (rune : Int) (capacity : Option Int) : Nat × List UInt8 :=
  if rune < 0 ∨ rune > 0x10FFFF ∨ rune ≥ 0xD800 ∧ rune ≤ 0xDFFF then (0, [])
  else
    let rune := rune.toNat
    let count := if rune ≤ 0x7F then 1 else if rune ≤ 0x7FF then 2 else if rune ≤ 0xFFFF then 3 else 4
    match capacity with
    | none => (count, [])
    | some capacity =>
      if capacity < count then (0, [])
      else if count = 1 then (count, [UInt8.ofNat rune])
      else if count = 2 then
        (count, [UInt8.ofNat (0xC0 ||| rune >>> 6), UInt8.ofNat (0x80 ||| (rune &&& 0x3F))])
      else if count = 3 then
        (count, [UInt8.ofNat (0xE0 ||| rune >>> 12), UInt8.ofNat (0x80 ||| (rune >>> 6 &&& 0x3F)),
          UInt8.ofNat (0x80 ||| (rune &&& 0x3F))])
      else
        (count, [UInt8.ofNat (0xF0 ||| rune >>> 18), UInt8.ofNat (0x80 ||| (rune >>> 12 &&& 0x3F)),
          UInt8.ofNat (0x80 ||| (rune >>> 6 &&& 0x3F)), UInt8.ofNat (0x80 ||| (rune &&& 0x3F))])

def countRunes (data : List UInt8) : Option Nat :=
  match data with
  | [] => some 0
  | first :: rest =>
    match read : utf8DecodeRune (first :: rest) with
    | none => none
    | some (consumed, _) => (countRunes ((first :: rest).drop consumed)).map (· + 1)
termination_by data.length
decreasing_by
  have positive := utf8DecodeRune_positive read
  simp only [List.length_drop, List.length_cons]
  omega

/-- `Utf8Valid`: the number of runes that it stores, or `FALSE`. `data` are the bytes from the
pointer on, if it is not `NULL`. -/
def utf8Valid (data : Option (List UInt8)) (length : Int) : Option Nat :=
  if length < 0 ∨ length ≠ 0 ∧ data = none then none
  else countRunes ((data.getD []).take length.toNat)

/-! ## Well-formed sequences -/

def Trails (b : UInt8) : Prop := b.toNat / 64 = 2

/-- The sequence is the shortest form of the code point. -/
inductive WellFormed : List UInt8 → Nat → Prop
  | one (a : UInt8) : a.toNat < 0x80 → WellFormed [a] a.toNat
  | two (a b : UInt8) : a.toNat / 32 = 6 → Trails b →
      0x80 ≤ a.toNat % 32 * 64 + b.toNat % 64 → WellFormed [a, b] (a.toNat % 32 * 64 + b.toNat % 64)
  | three (a b c : UInt8) (rune : Nat) : a.toNat / 16 = 14 → Trails b → Trails c →
      rune = a.toNat % 16 * 4096 + b.toNat % 64 * 64 + c.toNat % 64 → 0x800 ≤ rune →
      ¬(0xD800 ≤ rune ∧ rune ≤ 0xDFFF) → WellFormed [a, b, c] rune
  | four (a b c d : UInt8) (rune : Nat) : a.toNat / 8 = 30 → Trails b → Trails c → Trails d →
      rune = a.toNat % 8 * 262144 + b.toNat % 64 * 4096 + c.toNat % 64 * 64 + d.toNat % 64 →
      0x10000 ≤ rune → rune ≤ 0x10FFFF → WellFormed [a, b, c, d] rune

def IsScalar (rune : Nat) : Prop := rune ≤ 0x10FFFF ∧ ¬(0xD800 ≤ rune ∧ rune ≤ 0xDFFF)

theorem isScalar_char (ch : Char) : IsScalar ch.val.toNat := by
  have valid := ch.valid
  simp only [UInt32.isValidChar, Nat.isValidChar] at valid
  unfold IsScalar
  omega

variable {rune n : Nat} {bytes : List UInt8}

theorem IsScalar.char (scalar : IsScalar rune) : ∃ ch : Char, ch.val.toNat = rune := by
  unfold IsScalar at scalar
  exact ⟨charOf rune (by omega), charOf_val rune (by omega)⟩

/-- The well-formed sequences are the encodings of the characters. -/
theorem wellFormed_char (wellFormed : WellFormed bytes rune) :
    IsScalar rune ∧ bytes.map UInt8.toNat = codeUnits rune := by
  unfold IsScalar codeUnits
  cases wellFormed with
  | one a small =>
    constructor
    · omega
    · rw [if_pos (by omega)]
      rfl
  | two a b lead b' shortest =>
    unfold Trails at b'
    constructor
    · omega
    · rw [if_neg (by omega), if_pos (by omega)]
      simp only [List.map_cons, List.map_nil, List.cons.injEq, and_true]
      omega
  | three a b c rune lead b' c' value shortest noSurrogate =>
    unfold Trails at b' c'
    constructor
    · omega
    · rw [if_neg (by omega), if_neg (by omega), if_pos (by omega)]
      simp only [List.map_cons, List.map_nil, List.cons.injEq, and_true]
      omega
  | four a b c d rune lead b' c' d' value shortest bound =>
    unfold Trails at b' c' d'
    constructor
    · omega
    · rw [if_neg (by omega), if_neg (by omega), if_neg (by omega)]
      simp only [List.map_cons, List.map_nil, List.cons.injEq, and_true]
      omega

theorem char_wellFormed (ch : Char) : WellFormed (String.utf8EncodeChar ch) ch.val.toNat := by
  have scalar := isScalar_char ch
  have units := encode_toNat ch
  generalize String.utf8EncodeChar ch = bytes at units ⊢
  generalize ch.val.toNat = rune at *
  unfold IsScalar at scalar
  unfold codeUnits at units
  split at units
  · simp only [List.map_eq_cons_iff, List.map_eq_nil_iff] at units
    obtain ⟨a, _, rfl, one, rfl⟩ := units
    rw [← one]
    exact .one a (by omega)
  · split at units
    · simp only [List.map_eq_cons_iff, List.map_eq_nil_iff] at units
      obtain ⟨a, _, rfl, one, b, _, rfl, two, rfl⟩ := units
      have value : rune = a.toNat % 32 * 64 + b.toNat % 64 := by omega
      rw [value]
      exact .two a b (by omega) (by unfold Trails; omega) (by omega)
    · split at units
      · simp only [List.map_eq_cons_iff, List.map_eq_nil_iff] at units
        obtain ⟨a, _, rfl, one, b, _, rfl, two, c, _, rfl, three, rfl⟩ := units
        exact .three a b c rune (by omega) (by unfold Trails; omega) (by unfold Trails; omega)
          (by omega) (by omega) (by omega)
      · simp only [List.map_eq_cons_iff, List.map_eq_nil_iff] at units
        obtain ⟨a, _, rfl, one, b, _, rfl, two, c, _, rfl, three, d, _, rfl, four, rfl⟩ := units
        exact .four a b c d rune (by omega) (by unfold Trails; omega) (by unfold Trails; omega)
          (by unfold Trails; omega) (by omega) (by omega) (by omega)

/-- The decoder reads the well-formed sequence that the bytes begin with, and no other. -/
theorem utf8DecodeRune_iff {data : List UInt8} {count : Nat} :
    utf8DecodeRune data = some (count, rune) ↔
      ∃ bytes rest, data = bytes ++ rest ∧ WellFormed bytes rune ∧ bytes.length = count := by
  constructor
  · intro read
    obtain ⟨ch, value, size, rest, text⟩ := utf8DecodeRune_sound read
    have wellFormed := char_wellFormed ch
    rw [value] at wellFormed
    exact ⟨_, rest, text.symm, wellFormed, size⟩
  · intro begins
    obtain ⟨bytes, rest, text, wellFormed, size⟩ := begins
    obtain ⟨scalar, units⟩ := wellFormed_char wellFormed
    obtain ⟨ch, value⟩ := scalar.char
    rw [← value] at units
    have same := encode_of_units units
    rw [text, ← same, utf8DecodeRune_complete, value, same, size]

/-! ## The encoder -/

theorem or_lead (high k : Nat) {low : Nat} (small : low < 2 ^ k) :
    high <<< k ||| low = high * 2 ^ k + low := by
  rw [← Nat.shiftLeft_add_eq_or_of_lt small, Nat.shiftLeft_eq]

theorem or_trail (n : Nat) : 0x80 ||| (n &&& 0x3F) = n % 64 + 0x80 := by
  rw [Nat.and_two_pow_sub_one_eq_mod n 6]
  have joined : 0x80 ||| n % 2 ^ 6 = 2 * 2 ^ 6 + n % 2 ^ 6 := or_lead 2 6 (Nat.mod_lt n (by decide))
  omega

theorem or_two (small : n < 0x800) : 0xC0 ||| n >>> 6 = n / 64 + 0xC0 := by
  rw [Nat.shiftRight_eq_div_pow]
  have joined : 0xC0 ||| n / 2 ^ 6 = 6 * 2 ^ 5 + n / 2 ^ 6 := or_lead 6 5 (by omega)
  omega

theorem or_three (small : n < 0x10000) : 0xE0 ||| n >>> 12 = n / 4096 + 0xE0 := by
  rw [Nat.shiftRight_eq_div_pow]
  have joined : 0xE0 ||| n / 2 ^ 12 = 14 * 2 ^ 4 + n / 2 ^ 12 := or_lead 14 4 (by omega)
  omega

theorem or_four (small : n < 0x200000) : 0xF0 ||| n >>> 18 = n / 262144 + 0xF0 := by
  rw [Nat.shiftRight_eq_div_pow]
  have joined : 0xF0 ||| n / 2 ^ 18 = 30 * 2 ^ 3 + n / 2 ^ 18 := or_lead 30 3 (by omega)
  omega

theorem codeUnits_length (rune : Nat) : (codeUnits rune).length =
    if rune ≤ 0x7F then 1 else if rune ≤ 0x7FF then 2 else if rune ≤ 0xFFFF then 3 else 4 := by
  unfold codeUnits
  split
  · rfl
  · split
    · rfl
    · split
      · rfl
      · rfl

def runeBytes (rune : Nat) : List UInt8 := (codeUnits rune).map UInt8.ofNat

theorem utf8EncodeRune_size (scalar : IsScalar rune) :
    utf8EncodeRune rune none = ((runeBytes rune).length, []) := by
  unfold IsScalar at scalar
  unfold utf8EncodeRune runeBytes
  rw [if_neg (by omega), List.length_map, codeUnits_length]
  rfl

theorem utf8EncodeRune_full (scalar : IsScalar rune) {capacity : Int}
    (full : capacity < (runeBytes rune).length) :
    utf8EncodeRune rune (some capacity) = (0, []) := by
  unfold runeBytes at full
  rw [List.length_map, codeUnits_length] at full
  unfold IsScalar at scalar
  unfold utf8EncodeRune
  rw [if_neg (by omega)]
  exact if_pos full

theorem utf8EncodeRune_fits (scalar : IsScalar rune) {capacity : Int}
    (fits : (runeBytes rune).length ≤ capacity) :
    utf8EncodeRune rune (some capacity) = ((runeBytes rune).length, runeBytes rune) := by
  unfold runeBytes at fits ⊢
  rw [List.length_map, codeUnits_length] at fits
  rw [List.length_map, codeUnits_length]
  unfold IsScalar at scalar
  unfold utf8EncodeRune
  rw [if_neg (by omega)]
  dsimp only [Int.toNat_natCast]
  rw [if_neg (by omega)]
  unfold codeUnits
  split
  · rfl
  split
  · rw [or_two (by omega), or_trail]
    rfl
  · split
    · rw [or_three (by omega), or_trail, or_trail, Nat.shiftRight_eq_div_pow]
      rfl
    · rw [or_four (by omega), or_trail, or_trail, or_trail, Nat.shiftRight_eq_div_pow,
        Nat.shiftRight_eq_div_pow]
      rfl

theorem wellFormed_runeBytes (scalar : IsScalar rune) : WellFormed (runeBytes rune) rune := by
  obtain ⟨ch, value⟩ := scalar.char
  have units := encode_toNat ch
  have same : runeBytes rune = String.utf8EncodeChar ch := by
    unfold runeBytes
    rw [← value, ← units, List.map_map]
    apply List.map_id''
    intro b
    exact UInt8.ofNat_toNat
  rw [same, ← value]
  exact char_wellFormed ch

/-- A sequence has one code point, and a code point one sequence. -/
theorem WellFormed.eq_runeBytes (wellFormed : WellFormed bytes rune) : bytes = runeBytes rune := by
  have units := (wellFormed_char wellFormed).2
  have units' := (wellFormed_char (wellFormed_runeBytes (wellFormed_char wellFormed).1)).2
  have injective : Function.Injective (List.map UInt8.toNat) :=
    List.map_injective_iff.mpr fun a b same => UInt8.toNat_inj.mp same
  exact injective (units.trans units'.symm)

/-! ## The validator -/

inductive Sequence : List UInt8 → Nat → Prop
  | nil : Sequence [] 0
  | cons {bytes rest : List UInt8} {rune n : Nat} : WellFormed bytes rune → Sequence rest n →
      Sequence (bytes ++ rest) (n + 1)

theorem WellFormed.ne_nil (wellFormed : WellFormed bytes rune) : bytes ≠ [] := by
  cases wellFormed with
  | one => exact List.cons_ne_nil _ _
  | two => exact List.cons_ne_nil _ _
  | three => exact List.cons_ne_nil _ _
  | four => exact List.cons_ne_nil _ _

theorem countRunes_begins {rest : List UInt8} (wellFormed : WellFormed bytes rune) :
    countRunes (bytes ++ rest) = (countRunes rest).map (· + 1) := by
  have read := utf8DecodeRune_iff.mpr ⟨bytes, rest, rfl, wellFormed, rfl⟩
  have dropped : (bytes ++ rest).drop bytes.length = rest := List.drop_left
  cases whole : bytes ++ rest with
  | nil => exact absurd (List.append_eq_nil_iff.mp whole).1 wellFormed.ne_nil
  | cons first more =>
    rw [whole] at read dropped
    conv_lhs => unfold countRunes
    split
    · rename_i failed
      rw [read] at failed
      cases failed
    · rename_i consumed _ read'
      rw [read] at read'
      cases read'
      rw [dropped]

theorem countRunes_iff (data : List UInt8) (n : Nat) : countRunes data = some n ↔ Sequence data n := by
  constructor
  · intro counted
    induction data using countRunes.induct generalizing n with
    | case1 =>
      unfold countRunes at counted
      cases counted
      exact .nil
    | case2 first rest failed =>
      unfold countRunes at counted
      split at counted
      · cases counted
      · rename_i read
        rw [failed] at read
        cases read
    | case3 first rest consumed rune read ih =>
      obtain ⟨bytes, more, whole, wellFormed, size⟩ := utf8DecodeRune_iff.mp read
      rw [whole] at counted ih ⊢
      rw [countRunes_begins wellFormed] at counted
      rw [← size, List.drop_left] at ih
      obtain ⟨m, counted, same⟩ := Option.map_eq_some_iff.mp counted
      rw [← same]
      exact .cons wellFormed (ih m counted)
  · intro sequence
    induction sequence with
    | nil =>
      unfold countRunes
      rfl
    | cons wellFormed _ ih =>
      rw [countRunes_begins wellFormed, ih]
      rfl

structure Exact : Prop where
  decodesEncoding : ∀ rune : Nat, IsScalar rune → ∀ capacity : Int, ∀ rest,
    let encoding := utf8EncodeRune rune (some capacity)
    (utf8EncodeRune rune none).1 ≤ capacity →
      encoding.1 = encoding.2.length ∧ utf8EncodeRune rune none = (encoding.1, []) ∧
        utf8DecodeRune (encoding.2 ++ rest) = some (encoding.1, rune)
  decodes : ∀ data, (utf8DecodeRune data).isSome = true ↔
    ∃ bytes rest rune, data = bytes ++ rest ∧ WellFormed bytes rune
  encodesDecoded : ∀ data count rune, utf8DecodeRune data = some (count, rune) →
    utf8EncodeRune rune (some 4) = (count, data.take count)
  valid : ∀ data n, utf8Valid (some data) data.length = some n ↔ Sequence data n

theorem utf8_exact : Exact where
  decodesEncoding := by
    intro rune scalar capacity rest encoding fits
    rw [utf8EncodeRune_size scalar] at fits
    have written : encoding = _ := utf8EncodeRune_fits scalar fits
    rw [written]
    refine ⟨rfl, utf8EncodeRune_size scalar, ?_⟩
    exact utf8DecodeRune_iff.mpr ⟨_, rest, rfl, wellFormed_runeBytes scalar, rfl⟩
  decodes := by
    intro data
    constructor
    · intro succeeds
      obtain ⟨⟨count, rune⟩, read⟩ := Option.isSome_iff_exists.mp succeeds
      obtain ⟨bytes, rest, text, wellFormed, _⟩ := utf8DecodeRune_iff.mp read
      exact ⟨bytes, rest, rune, text, wellFormed⟩
    · intro begins
      obtain ⟨bytes, rest, rune, text, wellFormed⟩ := begins
      rw [utf8DecodeRune_iff.mpr ⟨bytes, rest, text, wellFormed, rfl⟩]
      rfl
  encodesDecoded := by
    intro data count rune read
    obtain ⟨bytes, rest, text, wellFormed, size⟩ := utf8DecodeRune_iff.mp read
    have scalar := (wellFormed_char wellFormed).1
    have four : ((runeBytes rune).length : Int) ≤ 4 := by
      unfold runeBytes
      rw [List.length_map, codeUnits_length]
      split
      · decide
      · split
        · decide
        · split
          · decide
          · decide
    rw [utf8EncodeRune_fits scalar four, ← wellFormed.eq_runeBytes, text, ← size, List.take_left]
  valid := by
    intro data n
    unfold utf8Valid
    rw [if_neg (by simp), Option.getD_some, Int.toNat_natCast, List.take_length]
    exact countRunes_iff data n

end Aholyc.Text
