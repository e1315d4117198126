import Aholyc.Alloc.Alloc
import Aholyc.Lib.Writer
import Aholyc.Text.Encoding

/-!
# Converting texts (lib/text/encoding.HC)

`textConvert` recodes a text rune by rune. It says how many bytes the whole text
needs, writes the runes that fit, and its results convert back.
-/

namespace Aholyc.Text

open Aholyc.Lib
open Aholyc.Alloc (i64Max)

/-- A slice of bytes, `none` if it is not valid, and its encoding. -/
structure CText where
  bytes : Option (List UInt8)
  encoding : Int
  deriving DecidableEq, Repr

/-- The `MemCpy` of a rune behind the `total` bytes, if it fits; `none` is a
write outside of the output. -/
def copyRune (output : Option (List UInt8)) (capacity total : Int) (bytes : List UInt8) :
    Option (Option (List UInt8)) :=
  match output with
  | none => some none
  | some buffer =>
    if total ≤ capacity ∧ (bytes.length : Int) ≤ capacity - total then
      ((⟨buffer, total.toNat⟩ : Writer UInt8).put bytes).map fun writer => some writer.output
    else some (some buffer)

/-- The rest of the loop from a position in the source on. -/
def convertLoop (source target capacity : Int) (data : List UInt8) (total : Int)
    (output : Option (List UInt8)) : Option (Int × Option (List UInt8)) :=
  match data with
  | [] => some (total, output)
  | first :: rest =>
    match textDecodeRune (first :: rest) source with
    | none => some (-1, output)
    | some (consumed, rune) =>
      let encoded := textEncodeRune rune target (some 4)
      if encoded.1 = 0 ∨ total > i64Max - encoded.1 then some (-1, output)
      else
        (copyRune output capacity total encoded.2).bind fun output =>
          convertLoop source target capacity (rest.drop (consumed - 1)) (total + encoded.1) output
termination_by data.length
decreasing_by
  simp only [List.length_drop, List.length_cons]
  omega

def textConvert (text : CText) (encoding : Int) (output : Option (List UInt8)) (capacity : Int) :
    Option (Int × Option (List UInt8)) :=
  match text.bytes with
  | none => some (-1, output)
  | some bytes =>
    if text.encoding < textEncodingUtf8 ∨ text.encoding > textEncodingEbcdic037 ∨
        encoding < textEncodingUtf8 ∨ encoding > textEncodingEbcdic037 ∨ capacity < 0 then
      some (-1, output)
    else convertLoop text.encoding encoding capacity bytes 0 output

/-! ## The codes -/

def Known (encoding : Int) : Prop := textEncodingUtf8 ≤ encoding ∧ encoding ≤ textEncodingEbcdic037

variable {encoding capacity : Int} {word : Nat → List UInt8} {rune : Nat}

theorem Codes.represents {represents : Nat → Prop} (codes : Codes encoding represents word)
    (same : ∀ rune, represents rune ↔ Represents encoding rune) :
    ∃ word, Codes encoding (Represents encoding) word := by
  have isSame : represents = Represents encoding := by
    funext rune
    exact propext (same rune)
  rw [← isSame]
  exact ⟨word, codes⟩

theorem Known.codes (known : Known encoding) :
    ∃ word, Codes encoding (Represents encoding) word := by
  have all : encoding = textEncodingUtf8 ∨ encoding = textEncodingUtf16Le ∨
      encoding = textEncodingUtf16Be ∨ encoding = textEncodingUtf32Le ∨
      encoding = textEncodingUtf32Be ∨ encoding = textEncodingAscii ∨
      encoding = textEncodingLatin1 ∨ encoding = textEncodingEbcdic037 := by
    unfold Known textEncodingUtf8 textEncodingEbcdic037 at known
    unfold textEncodingUtf8 textEncodingUtf16Le textEncodingUtf16Be textEncodingUtf32Le
      textEncodingUtf32Be textEncodingAscii textEncodingLatin1 textEncodingEbcdic037
    omega
  have wide {encoding : Int} (inside : 1 ≤ encoding ∧ encoding ≤ 5) (rune : Nat) :
      IsScalar rune ↔ Represents encoding rune :=
    ⟨fun scalar => ⟨scalar, Or.inl inside⟩, And.left⟩
  rcases all with rfl | rfl | rfl | rfl | rfl | rfl | rfl | rfl
  · exact codes_utf8.represents (wide (by decide))
  · exact codes_utf16Le.represents (wide (by decide))
  · exact codes_utf16Be.represents (wide (by decide))
  · exact codes_utf32Le.represents (wide (by decide))
  · exact codes_utf32Be.represents (wide (by decide))
  · apply codes_ascii.represents
    intro rune
    unfold Represents IsScalar textEncodingAscii
    omega
  · apply codes_latin1.represents
    intro rune
    unfold Represents IsScalar textEncodingLatin1
    omega
  · apply codes_ebcdic037.represents
    intro rune
    unfold Represents IsScalar textEncodingEbcdic037
    omega

def encodeWord (encoding : Int) (rune : Nat) : Option (List UInt8) :=
  let encoded := textEncodeRune rune encoding (some 4)
  if encoded.1 = 0 then none else some encoded.2

theorem Codes.encodeWord_some {represents : Nat → Prop} (codes : Codes encoding represents word)
    (isRune : represents rune) : encodeWord encoding rune = some (word rune) := by
  have short := codes.short rune
  have positive := List.length_pos_of_ne_nil (codes.nonempty rune)
  unfold encodeWord
  rw [codes.encodes rune isRune, sized_fits (by omega)]
  exact if_neg (by dsimp only; omega)

theorem Codes.encodeWord_iff {represents : Nat → Prop} (codes : Codes encoding represents word)
    {bytes : List UInt8} :
    encodeWord encoding rune = some bytes ↔ represents rune ∧ word rune = bytes := by
  by_cases isRune : represents rune
  · rw [codes.encodeWord_some isRune, Option.some.injEq]
    exact ⟨fun same => ⟨isRune, same⟩, And.right⟩
  · unfold encodeWord
    rw [codes.refuses rune isRune]
    simp [isRune]

def textCode (encoding : Int) (known : Known encoding) : PrefixCode Nat UInt8 where
  encode := encodeWord encoding
  decode := fun data => textDecodeRune data encoding
  exact := by
    intro data size rune
    obtain ⟨word, codes⟩ := known.codes
    constructor
    · intro read
      obtain ⟨isRune, rest, isData, isSize⟩ := codes.sound data size rune read
      exact ⟨word rune, rest, isData, codes.encodeWord_some isRune, isSize⟩
    · rintro ⟨bytes, rest, rfl, isWord, rfl⟩
      obtain ⟨isRune, rfl⟩ := codes.encodeWord_iff.mp isWord
      exact codes.reads rune rest isRune
  nonempty := by
    intro rune bytes isWord
    obtain ⟨word, codes⟩ := known.codes
    obtain ⟨_, rfl⟩ := codes.encodeWord_iff.mp isWord
    exact codes.nonempty rune

theorem encodeWord_represents (known : Known encoding) :
    encodeWord encoding rune ≠ none ↔ Represents encoding rune := by
  obtain ⟨word, codes⟩ := known.codes
  constructor
  · intro isSome
    obtain ⟨bytes, isWord⟩ := Option.ne_none_iff_exists'.mp isSome
    exact (codes.encodeWord_iff.mp isWord).1
  · intro isRune
    rw [codes.encodeWord_some isRune]
    exact Option.some_ne_none _

/-! ## The loop -/

def emitWords (capacity : Int) (whole : Bool) :
    List (List UInt8) → Int → Option (List UInt8) → Option (Int × Option (List UInt8))
  | [], total, output => some (if whole then total else -1, output)
  | word :: words, total, output =>
    if total > i64Max - word.length then some (-1, output)
    else (copyRune output capacity total word).bind fun output =>
      emitWords capacity whole words (total + word.length) output

section

variable {source target : Int} (isSource : Known source) (isTarget : Known target)

theorem convertLoop_eq (capacity : Int) (data : List UInt8) (total : Int)
    (output : Option (List UInt8)) :
    convertLoop source target capacity data total output =
      emitWords capacity ((textCode source isSource).recode (textCode target isTarget) data).2
        ((textCode source isSource).recode (textCode target isTarget) data).1 total output := by
  induction isLength : data.length using Nat.strongRecOn generalizing data total output with
  | _ n ih =>
    cases data with
    | nil =>
      rw [PrefixCode.recode_nil]
      unfold convertLoop
      rfl
    | cons first rest =>
      unfold convertLoop
      cases read : textDecodeRune (first :: rest) source with
      | none =>
        rw [PrefixCode.recode_stop (List.cons_ne_nil _ _)]
        · rfl
        · intro size value found
          have found' : textDecodeRune (first :: rest) source = some (size, value) := found
          rw [read] at found'
          cases found'
      | some found =>
        obtain ⟨consumed, rune⟩ := found
        have read' : (textCode source isSource).decode (first :: rest) =
          some (consumed, rune) := read
        have positive := (textCode source isSource).decode_positive read'
        dsimp only
        by_cases isRune : Represents target rune
        · obtain ⟨word, codes⟩ := isTarget.codes
          have isWord : (textCode target isTarget).encode rune = some (word rune) :=
            codes.encodeWord_some isRune
          have short := codes.short rune
          have notNil := List.length_pos_of_ne_nil (codes.nonempty rune)
          have isRest : (first :: rest).drop consumed = rest.drop (consumed - 1) := by
            obtain ⟨n, rfl⟩ := Nat.exists_eq_succ_of_ne_zero (Nat.ne_of_gt positive)
            rfl
          rw [PrefixCode.recode_read read' isWord, isRest, codes.encodes rune isRune,
            sized_fits (by omega)]
          unfold emitWords
          dsimp only
          by_cases wraps : total > i64Max - (word rune).length
          · rw [if_pos (Or.inr wraps), if_pos wraps]
          · rw [if_neg wraps, if_neg (by omega)]
            congr 1
            funext output
            apply ih _ _ _ _ _ rfl
            rw [← isLength, List.length_drop, List.length_cons]
            omega
        · have noWord : (textCode target isTarget).encode rune = none := by
            by_contra isSome
            exact isRune ((encodeWord_represents isTarget).mp isSome)
          obtain ⟨word, codes⟩ := isTarget.codes
          rw [PrefixCode.recode_stop (List.cons_ne_nil _ _), codes.refuses rune isRune]
          · exact if_pos (Or.inl rfl)
          · intro size value found
            rw [read'] at found
            cases found
            exact noWord

end

def required (whole : Bool) (count : Int) : Int :=
  if whole ∧ count ≤ i64Max then count else -1

theorem emitWords_none (capacity : Int) (whole : Bool) (words : List (List UInt8)) (total : Int)
    (fits : total ≤ i64Max) : emitWords capacity whole words total none =
      some (required whole (total + words.flatten.length), none) := by
  induction words generalizing total with
  | nil =>
    unfold emitWords required
    cases whole <;> simp [fits]
  | cons word words ih =>
    unfold emitWords
    rw [List.flatten_cons, List.length_append]
    by_cases wraps : total > i64Max - word.length
    · rw [if_pos wraps]
      unfold required
      rw [if_neg (by omega)]
    · rw [if_neg wraps]
      show emitWords capacity whole words (total + word.length) none = _
      rw [ih _ (by omega)]
      congr 3
      omega

/-- Behind a word that does not fit nothing is written. -/
theorem emitWords_full (whole : Bool) (words : List (List UInt8)) {total : Int}
    (fits : total ≤ i64Max) (full : capacity < total) (buffer : List UInt8) :
    emitWords capacity whole words total (some buffer) =
      some (required whole (total + words.flatten.length), some buffer) := by
  induction words generalizing total with
  | nil =>
    unfold emitWords required
    cases whole <;> simp [fits]
  | cons word words ih =>
    unfold emitWords
    rw [List.flatten_cons, List.length_append]
    by_cases wraps : total > i64Max - word.length
    · rw [if_pos wraps]
      unfold required
      rw [if_neg (by omega)]
    · have nothing : copyRune (some buffer) capacity total word = some (some buffer) := by
        unfold copyRune
        exact if_neg (by omega)
      rw [if_neg wraps, nothing, Option.bind_some, ih (by omega) (by omega)]
      congr 3
      omega

/-- The words that fit are written behind what has been written. -/
theorem emitWords_some (isI64 : capacity ≤ i64Max) (whole : Bool) (words : List (List UInt8))
    {old : List UInt8} (room : capacity ≤ old.length) {front : List UInt8}
    (fits : front.length ≤ capacity) :
    emitWords capacity whole words front.length (some (written old front).output) =
      some (required whole (front.length + words.flatten.length),
        some (written old (front ++ (PrefixCode.fitting (capacity.toNat - front.length)
          words).flatten)).output) := by
  induction words generalizing front with
  | nil =>
    have inside : (front.length : Int) ≤ i64Max := by omega
    unfold emitWords required PrefixCode.fitting
    rw [List.flatten_nil, List.append_nil]
    cases whole <;> simp [inside]
  | cons word words ih =>
    unfold emitWords PrefixCode.fitting
    rw [List.flatten_cons, List.length_append]
    by_cases goesIn : word.length ≤ capacity.toNat - front.length
    · have put := @put_written UInt8 old front word (by omega)
      have copied : copyRune (some (written old front).output) capacity front.length word =
          some (some (written old (front ++ word)).output) := by
        unfold copyRune
        dsimp only
        rw [if_pos (by omega), Int.toNat_natCast]
        show (Writer.put (written old front) word).map _ = _
        rw [put]
        rfl
      have isSum : (front.length : Int) + word.length = (front ++ word).length := by
        rw [List.length_append]
        omega
      rw [if_pos goesIn, if_neg (by omega), copied, Option.bind_some, isSum,
        ih (by omega), List.flatten_cons, List.append_assoc, List.length_append, Nat.sub_sub]
      congr 3
      omega
    · by_cases wraps : (front.length : Int) > i64Max - word.length
      · rw [if_pos wraps, if_neg goesIn]
        unfold required
        rw [if_neg (by omega), List.flatten_nil, List.append_nil]
      have nothing : copyRune (some (written old front).output) capacity front.length word =
          some (some (written old front).output) := by
        unfold copyRune
        exact if_neg (by omega)
      rw [if_neg wraps, if_neg goesIn, nothing, Option.bind_some,
        emitWords_full whole words (by omega) (by omega), List.flatten_nil, List.append_nil]
      congr 3
      omega

/-! ## Conversions -/

def Spells (encoding : Int) (runes : List Nat) (words : List (List UInt8)) : Prop :=
  List.Forall₂ (fun (rune : Nat) word => word ≠ [] ∧
    textEncodeRune rune encoding (some 4) = (word.length, word)) runes words

def Longest (capacity : Int) (words : List (List UInt8)) (front : List UInt8) : Prop :=
  ∃ count ≤ words.length, front = (words.take count).flatten ∧ front.length ≤ capacity ∧
    (count < words.length → capacity < (words.take (count + 1)).flatten.length)

theorem spells_iff (known : Known encoding) {runes : List Nat} {words : List (List UInt8)} :
    Spells encoding runes words ↔ (textCode encoding known).Words runes words := by
  have same (rune : Nat) (word : List UInt8) :
      (word ≠ [] ∧ textEncodeRune rune encoding (some 4) = (word.length, word)) ↔
        encodeWord encoding rune = some word := by
    constructor
    · rintro ⟨notNil, encoded⟩
      have positive := List.length_pos_of_ne_nil notNil
      unfold encodeWord
      rw [encoded]
      exact if_neg (by dsimp only; omega)
    · intro isWord
      obtain ⟨word', codes⟩ := known.codes
      obtain ⟨isRune, rfl⟩ := codes.encodeWord_iff.mp isWord
      have short := codes.short rune
      exact ⟨codes.nonempty rune, by rw [codes.encodes rune isRune, sized_fits (by omega)]⟩
  unfold Spells PrefixCode.Words
  constructor
  · intro spells
    exact spells.imp fun rune word => (same rune word).mp
  · intro isWords
    exact isWords.imp fun rune word => (same rune word).mpr

theorem fitting_all {words : List (List UInt8)} {capacity : Nat}
    (room : words.flatten.length ≤ capacity) : PrefixCode.fitting capacity words = words := by
  induction words generalizing capacity with
  | nil => rfl
  | cons word words ih =>
    rw [List.flatten_cons, List.length_append] at room
    rw [PrefixCode.fitting, if_pos (by omega), ih (by omega)]

theorem textConvert_known {source target : Int} (isSource : Known source) (isTarget : Known target)
    (nonneg : 0 ≤ capacity) (bytes : List UInt8) (output : Option (List UInt8)) :
    textConvert ⟨some bytes, source⟩ target output capacity =
      emitWords capacity ((textCode source isSource).recode (textCode target isTarget) bytes).2
        ((textCode source isSource).recode (textCode target isTarget) bytes).1 0 output := by
  unfold textConvert
  dsimp only
  unfold Known at isSource isTarget
  rw [if_neg (by omega)]
  exact convertLoop_eq isSource isTarget capacity bytes 0 output

theorem textConvert_some {source target : Int} (isSource : Known source) (isTarget : Known target)
    (nonneg : 0 ≤ capacity) (isI64 : capacity ≤ i64Max) (bytes : List UInt8) {buffer : List UInt8}
    (room : capacity ≤ buffer.length) :
    textConvert ⟨some bytes, source⟩ target (some buffer) capacity =
      some (required ((textCode source isSource).recode (textCode target isTarget) bytes).2
          ((textCode source isSource).recode (textCode target isTarget) bytes).1.flatten.length,
        some (written buffer (PrefixCode.fitting capacity.toNat
          ((textCode source isSource).recode (textCode target isTarget)
            bytes).1).flatten).output) := by
  have emitted := @emitWords_some capacity isI64
    ((textCode source isSource).recode (textCode target isTarget) bytes).2
    ((textCode source isSource).recode (textCode target isTarget) bytes).1 buffer room []
    (by rw [List.length_nil]; omega)
  rw [List.length_nil, Nat.sub_zero, List.nil_append, written_nil] at emitted
  rw [textConvert_known isSource isTarget nonneg, show (0 : Int) = ((0 : Nat) : Int) from rfl,
    emitted]
  congr 3
  omega

structure RoundTrips : Prop where
  represents : ∀ encoding rune : Int, Known encoding →
    ((textEncodeRune rune encoding none).1 ≠ 0 ↔ 0 ≤ rune ∧ Represents encoding rune.toNat)
  runes : ∀ (encoding : Int) (rune : Nat), Known encoding → Represents encoding rune →
    ∃ word, word ≠ [] ∧
      (∀ capacity, textEncodeRune rune encoding capacity = sized word capacity) ∧
      ∀ rest, textDecodeRune (word ++ rest) encoding = some (word.length, rune)
  decodes : ∀ (encoding : Int) (data : List UInt8) (size rune : Nat), Known encoding →
    textDecodeRune data encoding = some (size, rune) →
    textEncodeRune rune encoding (some 4) = (size, data.take size)
  converts : ∀ (source target : Int) (runes : List Nat) (words targets : List (List UInt8)),
    Known source → Known target → Spells source runes words → Spells target runes targets →
    ∀ capacity : Int, 0 ≤ capacity → capacity ≤ i64Max →
      textConvert ⟨some words.flatten, source⟩ target none capacity =
        some (required true targets.flatten.length, none) ∧
      ∀ buffer : List UInt8, capacity ≤ buffer.length → ∃ front, Longest capacity targets front ∧
        textConvert ⟨some words.flatten, source⟩ target (some buffer) capacity =
          some (required true targets.flatten.length, some (front ++ buffer.drop front.length))
  rejects : ∀ (source target : Int) (bytes : List UInt8), Known source → Known target →
    (¬∃ runes words targets, Spells source runes words ∧ words.flatten = bytes ∧
      Spells target runes targets) →
    ∀ capacity : Int, 0 ≤ capacity → capacity ≤ i64Max →
      textConvert ⟨some bytes, source⟩ target none capacity = some (-1, none) ∧
      ∀ buffer : List UInt8, capacity ≤ buffer.length → ∃ front : List UInt8,
        front.length ≤ capacity ∧
        textConvert ⟨some bytes, source⟩ target (some buffer) capacity =
          some (-1, some (front ++ buffer.drop front.length))
  unknown : ∀ (text : CText) (target capacity : Int) (output : Option (List UInt8)),
    ¬Known text.encoding ∨ ¬Known target ∨ capacity < 0 →
    textConvert text target output capacity = some (-1, output)
  back : ∀ (source target : Int) (runes : List Nat) (words targets : List (List UInt8)),
    Known source → Known target → Spells source runes words → Spells target runes targets →
    ∀ (capacity : Int) (buffer : List UInt8), words.flatten.length ≤ capacity →
      capacity ≤ i64Max → capacity ≤ buffer.length →
      textConvert ⟨some targets.flatten, target⟩ source (some buffer) capacity =
        some ((words.flatten.length : Int),
          some (words.flatten ++ buffer.drop words.flatten.length))

theorem text_roundTrips : RoundTrips where
  represents := by
    intro encoding rune known
    obtain ⟨word, codes⟩ := known.codes
    by_cases negative : rune < 0
    · rw [textEncodeRune_scalar encoding none (Or.inl negative)]
      simp only [ne_eq, not_true, false_iff]
      omega
    · obtain ⟨n, rfl⟩ := Int.eq_ofNat_of_zero_le (Int.not_lt.mp negative)
      rw [Int.toNat_natCast]
      by_cases isRune : Represents encoding n
      · have positive := List.length_pos_of_ne_nil (codes.nonempty n)
        rw [codes.encodes n isRune]
        exact iff_of_true (Nat.ne_of_gt positive) ⟨by omega, isRune⟩
      · rw [codes.refuses n isRune]
        exact iff_of_false (fun isSome => isSome rfl) fun both => isRune both.2
  runes := by
    intro encoding rune known isRune
    obtain ⟨word, codes⟩ := known.codes
    exact ⟨word rune, codes.nonempty rune, codes.encodes rune isRune,
      fun rest => codes.reads rune rest isRune⟩
  decodes := by
    intro encoding data size rune known read
    obtain ⟨word, codes⟩ := known.codes
    obtain ⟨isRune, rest, rfl, rfl⟩ := codes.sound data size rune read
    have short := codes.short rune
    rw [codes.encodes rune isRune, sized_fits (by omega), List.take_left]
  converts := by
    intro source target runes words targets isSource isTarget spells spells' capacity nonneg isI64
    have recoded := PrefixCode.recode_words ((spells_iff isSource).mp spells)
      ((spells_iff isTarget).mp spells')
    constructor
    · rw [textConvert_known isSource isTarget nonneg, recoded,
        emitWords_none _ _ _ _ (by unfold i64Max; omega), Int.zero_add]
    · intro buffer room
      obtain ⟨count, le, isTake, longest⟩ := PrefixCode.fitting_longest capacity.toNat targets
      have less := PrefixCode.fitting_length capacity.toNat targets
      refine ⟨(PrefixCode.fitting capacity.toNat targets).flatten,
        ⟨count, le, by rw [isTake], by omega, ?_⟩, ?_⟩
      · intro more
        have tooLong := longest more
        omega
      · rw [textConvert_some isSource isTarget nonneg isI64 _ room, recoded]
        rfl
  rejects := by
    intro source target bytes isSource isTarget none' capacity nonneg isI64
    have stops : ((textCode source isSource).recode (textCode target isTarget) bytes).2 =
        false := by
      by_contra whole
      obtain ⟨runes, words, isWords, isText, isTargets⟩ :=
        PrefixCode.recode_true (by simpa using whole)
      exact none' ⟨runes, words, _, (spells_iff isSource).mpr isWords, isText,
        (spells_iff isTarget).mpr isTargets⟩
    constructor
    · rw [textConvert_known isSource isTarget nonneg, stops,
        emitWords_none _ _ _ _ (by unfold i64Max; omega)]
      rfl
    · intro buffer room
      have less := PrefixCode.fitting_length capacity.toNat
        ((textCode source isSource).recode (textCode target isTarget) bytes).1
      refine ⟨(PrefixCode.fitting capacity.toNat
        ((textCode source isSource).recode (textCode target isTarget) bytes).1).flatten,
        by omega, ?_⟩
      rw [textConvert_some isSource isTarget nonneg isI64 _ room, stops]
      rfl
  unknown := by
    intro text target capacity output bad
    unfold Known at bad
    unfold textConvert
    cases text.bytes with
    | none => rfl
    | some bytes => exact if_pos (by omega)
  back := by
    intro source target runes words targets isSource isTarget spells spells' capacity buffer whole
      isI64 room
    have recoded := PrefixCode.recode_words ((spells_iff isTarget).mp spells')
      ((spells_iff isSource).mp spells)
    rw [textConvert_some isTarget isSource (by omega) isI64 _ room, recoded]
    dsimp only
    rw [fitting_all (by omega)]
    unfold required
    rw [if_pos ⟨rfl, by omega⟩]
    rfl

end Aholyc.Text
