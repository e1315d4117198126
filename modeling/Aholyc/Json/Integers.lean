import Mathlib.Data.Nat.Digits.Defs
import Aholyc.Json.Encoded
import Aholyc.Json.Query

/-!
# Integers of a decoded value

`JsonValueAsI64` counts downwards, where the machine integers reach one further. The loop
answers the number that the digits denote, or nothing where it falls below the limit.
-/

namespace Aholyc.Json

open Aholyc.Lib.Scanner Aholyc.Text
open Computability

variable {F : Type}

def asI64Loop (limit multiplyLimit : Int64) : List UInt8 → Int64 → Option Int64
  | [], number => some number
  | ch :: rest, number =>
      if ch < byte '0' ∨ ch > byte '9' then none
      else
        let digit := ch.toUInt64.toInt64 - (byte '0').toUInt64.toInt64
        if number < multiplyLimit then none
        else
          let number := number * 10
          if number < limit + digit then none
          else asI64Loop limit multiplyLimit rest (number - digit)

def jsonValueAsI64 (value : JsonView) : Option Int64 :=
  if value.type ≠ .number then none
  else
    match value.data with
    | [] => none
    | ch :: rest =>
        if value.data = bytes "-9223372036854775808" then some Int64.minValue
        else
          let negative := ch = byte '-'
          let limit := if negative then Int64.minValue else -Int64.maxValue
          (asI64Loop limit (limit / 10) (if negative then rest else ch :: rest) 0).map fun number =>
            if negative then number else -number

/-! ## The numbers that digits denote -/

def digitOf (ch : UInt8) : Nat := ch.toNat - (byte '0').toNat

def natural (word : List UInt8) : Nat := Nat.ofDigits 10 (word.reverse.map digitOf)

inductive Denotes : List UInt8 → Int → Prop where
  | natural (word : List UInt8) (isInteger : word ∈ integer) : Denotes word (natural word)
  | negative (word : List UInt8) (isInteger : word ∈ integer) :
      Denotes (byte '-' :: word) (-natural word)

theorem natural_snoc (word : List UInt8) (ch : UInt8) :
    natural (word ++ [ch]) = natural word * 10 + digitOf ch := by
  simp only [natural, List.reverse_append, List.reverse_singleton, List.singleton_append,
    List.map_cons, Nat.ofDigits_cons]
  omega

theorem natural_le (word more : List UInt8) : natural word ≤ natural (word ++ more) := by
  induction more using List.reverseRecOn with
  | nil => rw [List.append_nil]
  | append_singleton more ch ih =>
    rw [← List.append_assoc, natural_snoc]
    omega

theorem natural_toDigits (n : Nat) : natural ((Nat.toDigits 10 n).map byte) = n := by
  have value : ∀ n < 10, digitOf (byte (Nat.digitChar n)) = n := by decide
  induction n using Nat.strongRecOn with
  | ind n ih =>
    by_cases small : n < 10
    · rw [Nat.toDigits_of_lt_base small]
      have one := natural_snoc [] (byte (Nat.digitChar n))
      rw [value n small] at one
      simpa [natural] using one
    · rw [Nat.toDigits_of_base_le (by omega) (by omega), List.map_append, List.map_singleton,
        natural_snoc, ih (n / 10) (by omega), value (n % 10) (by omega)]
      omega

/-! ## The loop -/

variable {ch : UInt8} {n : Int} {word : List UInt8}

theorem digit_toInt (isDigit : isDigit ch = true) :
    (ch.toUInt64.toInt64 - (byte '0').toUInt64.toInt64).toInt = digitOf ch ∧ digitOf ch ≤ 9 := by
  revert ch
  apply byte_cases
  decide +kernel

theorem isDigit_iff : isDigit ch = true ↔ ¬(ch < byte '0' ∨ ch > byte '9') := by
  simp [isDigit, within]

def isLimit (limit : Int64) : Prop := limit = Int64.minValue ∨ limit = -Int64.maxValue

theorem isLimit.tenth {limit : Int64} (ends : isLimit limit) :
    (limit / 10).toInt = -922337203685477580 ∧ -9223372036854775808 ≤ limit.toInt ∧
      limit.toInt ≤ -9223372036854775807 := by
  cases ends with
  | inl isMin =>
    subst isMin
    decide +kernel
  | inr isMax =>
    subst isMax
    decide +kernel

theorem int64_exact (low : -9223372036854775808 ≤ n) (high : n ≤ 9223372036854775807) :
    n.bmod (2 ^ 64) = n := by
  apply Int.bmod_eq_of_le
  · omega
  · omega

/-- From the number of the digits behind it, the loop goes on to the number of all of them. -/
theorem asI64Loop_iff {limit : Int64} (ends : isLimit limit) (done word : List UInt8)
    {number : Int64} (sofar : number.toInt = -natural done) (above : limit.toInt ≤ number.toInt)
    (result : Int64) :
    asI64Loop limit (limit / 10) word number = some result ↔
      word ∈ wordsOf isDigit ∧ limit.toInt ≤ -natural (done ++ word) ∧
        result.toInt = -natural (done ++ word) := by
  obtain ⟨tenth, low, high⟩ := ends.tenth
  induction word generalizing done number with
  | nil =>
    rw [asI64Loop, List.append_nil, ← sofar, Option.some.injEq, eq_comm, Int64.toInt_inj]
    constructor
    · intro same
      exact ⟨List.forall_mem_nil _, above, same⟩
    · intro all
      exact all.2.2
  | cons ch rest ih =>
    have split : done ++ ch :: rest = done ++ [ch] ++ rest := by
      rw [List.append_assoc, List.singleton_append]
    have next := natural_snoc done ch
    have grows := natural_le (done ++ [ch]) rest
    rw [asI64Loop, split]
    by_cases other : ch < byte '0' ∨ ch > byte '9'
    · rw [if_pos other]
      constructor
      · intro none
        cases none
      · intro all
        exact absurd (all.1 ch List.mem_cons_self) (isDigit_iff.not.mpr (not_not.mpr other))
    · have digit : isDigit ch = true := isDigit_iff.mpr other
      obtain ⟨value, small⟩ := digit_toInt digit
      rw [if_neg other]
      dsimp only
      generalize ch.toUInt64.toInt64 - (byte '0').toUInt64.toInt64 = digit' at value ⊢
      by_cases tooLow : number < limit / 10
      · -- ten times a number below the tenth is below the limit
        rw [if_pos tooLow]
        rw [Int64.lt_iff_toInt_lt, tenth] at tooLow
        constructor
        · intro none
          cases none
        · intro all
          have inRange := all.2.1
          omega
      · rw [if_neg tooLow]
        rw [Int64.lt_iff_toInt_lt, tenth] at tooLow
        have product : (number * 10).toInt = number.toInt * 10 := by
          have ten : (10 : Int64).toInt = 10 := rfl
          rw [Int64.toInt_mul, ten]
          exact int64_exact (by omega) (by omega)
        have lowest : (limit + digit').toInt = limit.toInt + digitOf ch := by
          rw [Int64.toInt_add, value]
          exact int64_exact (by omega) (by omega)
        by_cases beyond : number * 10 < limit + digit'
        · rw [if_pos beyond]
          rw [Int64.lt_iff_toInt_lt, product, lowest] at beyond
          constructor
          · intro none
            cases none
          · intro all
            have inRange := all.2.1
            omega
        · rw [if_neg beyond]
          rw [Int64.lt_iff_toInt_lt, product, lowest] at beyond
          have taken : (number * 10 - digit').toInt = -natural (done ++ [ch]) := by
            rw [Int64.toInt_sub, product, value, int64_exact (by omega) (by omega)]
            omega
          rw [ih (done ++ [ch]) taken (by omega), wordsOf_cons digit]

/-! ## The words -/

/-- A number is an integer literal, or a byte that is no digit stands behind its integer part. -/
theorem number_cases (isNumber : word ∈ number) :
    ∃ whole ∈ integer, ∃ tail, (word = whole ++ tail ∨ word = byte '-' :: (whole ++ tail)) ∧
      (tail = [] ∨ tail ∉ wordsOf isDigit) := by
  obtain ⟨_, isDecimal, exponent, isExponent, rfl⟩ := Language.mem_mul.mp isNumber
  obtain ⟨_, isSigned, fraction, isFraction, rfl⟩ := Language.mem_mul.mp isDecimal
  obtain ⟨sign, isSign, whole, isWhole, rfl⟩ := Language.mem_mul.mp isSigned
  refine ⟨whole, isWhole, fraction ++ exponent, ?_, ?_⟩
  · cases isSign with
    | inl none =>
      left
      rw [(Language.mem_one sign).mp none, List.nil_append, List.append_assoc]
    | inr minus =>
      obtain ⟨ch, isMinus, rfl⟩ := minus
      right
      rw [of_decide_eq_true isMinus, List.append_assoc, List.append_assoc, List.singleton_append]
  · cases isFraction with
    | inr point =>
      obtain ⟨first, ⟨ch, isPoint, rfl⟩, others, _, rfl⟩ := Language.mem_mul.mp point
      right
      intro allDigits
      have digit := allDigits ch (by simp)
      rw [of_decide_eq_true isPoint] at digit
      cases digit
    | inl none =>
      rw [(Language.mem_one fraction).mp none, List.nil_append]
      cases isExponent with
      | inl none => exact Or.inl ((Language.mem_one exponent).mp none)
      | inr power =>
        obtain ⟨first, isFirst, others, _, rfl⟩ := Language.mem_mul.mp power
        obtain ⟨letter, ⟨ch, isLetter, rfl⟩, sign, _, rfl⟩ := Language.mem_mul.mp isFirst
        right
        intro allDigits
        have digit := allDigits ch (by simp)
        rw [Bool.or_eq_true, decide_eq_true_eq, decide_eq_true_eq] at isLetter
        cases isLetter with
        | inl small => subst small; cases digit
        | inr capital => subst capital; cases digit

theorem integer_digits (isInteger : word ∈ integer) :
    word ∈ wordsOf isDigit ∧ ∃ ch rest, word = ch :: rest ∧ isDigit ch = true := by
  cases isInteger with
  | inl zero =>
    have isZero : word = bytes "0" := zero
    subst isZero
    have digit : isDigit (byte '0') = true := rfl
    exact ⟨fun ch inWord => List.mem_singleton.mp inWord ▸ digit, byte '0', [], rfl, digit⟩
  | inr other =>
    obtain ⟨first, ⟨ch, isFirst, rfl⟩, rest, areDigits, rfl⟩ := Language.mem_mul.mp other
    have digit : isDigit ch = true := isDigit_leading isFirst
    exact ⟨(wordsOf_cons digit).mpr areDigits, ch, rest, rfl, digit⟩

/-! ## Exact conversions -/

/-- The lowest integer is what the loop answers as well. -/
theorem jsonValueAsI64_minus (rest : List UInt8) (comments : Bool) :
    jsonValueAsI64 ⟨byte '-' :: rest, .number, comments⟩ =
      asI64Loop Int64.minValue (Int64.minValue / 10) rest 0 := by
  unfold jsonValueAsI64
  rw [if_neg (not_not.mpr rfl)]
  dsimp only
  split_ifs with lowest minus
  · have same : byte '-' :: rest = byte '-' :: bytes "9223372036854775808" := lowest
    injection same with _ isRest
    rw [isRest]
    decide +kernel
  · exact Option.map_id'
  · exact absurd rfl minus

theorem jsonValueAsI64_plain (plain : ch ≠ byte '-') (rest : List UInt8) (comments : Bool) :
    jsonValueAsI64 ⟨ch :: rest, .number, comments⟩ =
      (asI64Loop (-Int64.maxValue) (-Int64.maxValue / 10) (ch :: rest) 0).map (- ·) := by
  unfold jsonValueAsI64
  rw [if_neg (not_not.mpr rfl)]
  dsimp only
  split_ifs with lowest
  · have same : ch :: rest = byte '-' :: bytes "9223372036854775808" := lowest
    injection same with isMinus _
    exact absurd isMinus plain
  · rfl

theorem isDigit_not_minus (digit : isDigit ch = true) : ch ≠ byte '-' := by
  intro isMinus
  rw [isMinus] at digit
  cases digit

theorem denotes_minus : Denotes (byte '-' :: word) n ↔ word ∈ integer ∧ n = -natural word := by
  constructor
  · intro denotes
    cases denotes with
    | natural _ isInteger =>
      have digits := (integer_digits isInteger).1 (byte '-') List.mem_cons_self
      exact absurd rfl (isDigit_not_minus digits)
    | negative _ isInteger => exact ⟨isInteger, rfl⟩
  · rintro ⟨isInteger, rfl⟩
    exact .negative word isInteger

theorem denotes_plain (plain : ch ≠ byte '-') {rest : List UInt8} :
    Denotes (ch :: rest) n ↔ ch :: rest ∈ integer ∧ n = natural (ch :: rest) := by
  constructor
  · intro denotes
    generalize isWord : ch :: rest = word at denotes
    cases denotes with
    | natural _ isInteger => exact ⟨isInteger, rfl⟩
    | negative word isInteger =>
      injection isWord with isMinus _
      exact absurd isMinus plain
  · rintro ⟨isInteger, rfl⟩
    exact .natural _ isInteger

/-- Where no digit is missing, the whole word is the integer part. -/
theorem digits_integer {whole tail : List UInt8} (isWhole : whole ∈ integer)
    (ends : tail = [] ∨ tail ∉ wordsOf isDigit) :
    whole ++ tail ∈ wordsOf isDigit ↔ whole ++ tail ∈ integer := by
  constructor
  · intro digits
    have others : tail ∈ wordsOf isDigit := fun ch inTail =>
      digits ch (List.mem_append_right whole inTail)
    have none : tail = [] := ends.resolve_right (not_not.mpr others)
    rwa [none, List.append_nil]
  · intro isInteger
    exact (integer_digits isInteger).1

/-- A number is converted where it is an integer literal of a machine integer, and to it. -/
theorem jsonValueAsI64_iff (isNumber : word ∈ number) (comments : Bool) (value : Int64) :
    jsonValueAsI64 ⟨word, .number, comments⟩ = some value ↔ Denotes word value.toInt := by
  obtain ⟨whole, isWhole, tail, spelled, ends⟩ := number_cases isNumber
  have digits := digits_integer isWhole ends
  have lowest : Int64.minValue.toInt = -9223372036854775808 := rfl
  have highest : (-Int64.maxValue).toInt = -9223372036854775807 := rfl
  have low := value.le_toInt
  have high := value.toInt_lt
  cases spelled with
  | inr minus =>
    rw [minus, jsonValueAsI64_minus, denotes_minus,
      asI64Loop_iff (Or.inl rfl) [] (whole ++ tail) rfl (by decide) value, List.nil_append, digits]
    constructor
    · intro all
      exact ⟨all.1, all.2.2⟩
    · intro both
      have same := both.2
      exact ⟨both.1, by omega, same⟩
  | inl plain =>
    obtain ⟨_, ch, rest, isCons, digit⟩ := integer_digits isWhole
    have notMinus := isDigit_not_minus digit
    have split : whole ++ tail = ch :: (rest ++ tail) := by rw [isCons, List.cons_append]
    have opposite (number : Int64) (positive : -9223372036854775807 ≤ number.toInt) :
        (-number).toInt = -number.toInt := by
      have small := number.toInt_lt
      rw [Int64.toInt_neg, int64_exact (by omega) (by omega)]
    rw [plain, split, jsonValueAsI64_plain notMinus, denotes_plain notMinus, ← split,
      Option.map_eq_some_iff, ← digits]
    constructor
    · rintro ⟨number, found, rfl⟩
      rw [asI64Loop_iff (Or.inr rfl) [] (whole ++ tail) rfl (by decide) number, List.nil_append]
        at found
      obtain ⟨areDigits, inRange, same⟩ := found
      exact ⟨areDigits, by rw [opposite number (by omega)]; omega⟩
    · rintro ⟨areDigits, same⟩
      have negated := opposite value (by omega)
      refine ⟨-value, ?_, Int64.neg_neg⟩
      rw [asI64Loop_iff (Or.inr rfl) [] (whole ++ tail) rfl (by decide) (-value), List.nil_append]
      exact ⟨areDigits, by omega, by omega⟩

/-! ## Integers there and back -/

theorem toString_denotes (n : Int) : Denotes (bytes (toString n)) n := by
  rw [toString_bytes]
  have value := natural_toDigits n.natAbs
  split
  · have negative := Denotes.negative _ (toDigits_mem n.natAbs)
    rw [value] at negative
    have same : -(n.natAbs : Int) = n := by omega
    rwa [same] at negative
  · have positive := Denotes.natural _ (toDigits_mem n.natAbs)
    rw [value] at positive
    have same : (n.natAbs : Int) = n := by omega
    rwa [same] at positive

/-- A number is converted just where it is an integer literal of a machine integer, and to this
integer; what an integer is encoded to decodes to a number that is converted to it. -/
theorem jsonIntegers_exact :
    (∀ word ∈ number, ∀ comments,
      ((∃ value, jsonValueAsI64 ⟨word, .number, comments⟩ = some value) ↔
        ∃ n, Denotes word n ∧ -2 ^ 63 ≤ n ∧ n ≤ 2 ^ 63 - 1) ∧
      ∀ value, jsonValueAsI64 ⟨word, .number, comments⟩ = some value → Denotes word value.toInt) ∧
    ∀ (n : Int64) (format : F → List UInt8), ∃ text : List UInt8,
      (∀ buffer, (finished format [.i64 n] buffer).1 =
          (if ∀ data ∈ buffer, text.length < data.length then (text.length : Int) else -1) ∧
        ∀ data ∈ buffer, text.length < data.length → ∃ rest,
          (finished format [.i64 n] buffer).2.data = some (text ++ 0 :: rest)) ∧
      ∀ (decoder : CJsonDecoder) extra, ∃ after root,
        jsonDecode (2 * text.length + 1 + extra) { decoder with data := some text } = .found after ∧
        after.values.getLast? = some root ∧ jsonValueAsI64 (root.view text) = some n := by
  constructor
  · intro word isNumber comments
    have converts := jsonValueAsI64_iff isNumber comments
    refine ⟨⟨?_, ?_⟩, fun value => (converts value).mp⟩
    · rintro ⟨value, found⟩
      have low := value.le_toInt
      have high := value.toInt_lt
      exact ⟨value.toInt, (converts value).mp found, low, by omega⟩
    · rintro ⟨n, denotes, low, high⟩
      have same : (Int64.ofInt n).toInt = n := by
        rw [Int64.toInt_ofInt]
        exact int64_exact (by omega) (by omega)
      refine ⟨Int64.ofInt n, (converts _).mpr ?_⟩
      rwa [same]
  · intro n format
    refine ⟨bytes (toString n.toInt), ?_, ?_⟩
    · intro buffer
      have scalar : (Call.i64 n).scalar format = some (bytes (toString n.toInt),
          .number (bytes (toString n.toInt))) := rfl
      obtain ⟨length, written⟩ := finished_closed (outline_scalar scalar) buffer
      refine ⟨length, ?_⟩
      intro data isData room
      obtain ⟨rest, isText, _⟩ := written data isData room
      exact ⟨rest, isText⟩
    · intro decoder extra
      have isNumber := toString_mem n.toInt
      have means : Means decoder.allowComments .value (depthLimit decoder.maxDepth)
          (bytes (toString n.toInt)) [([], .number (bytes (toString n.toInt)))] :=
        .number _ _ isNumber
      obtain ⟨after, ended, last⟩ := means.decodes (Nat.lt_add_right extra (Nat.lt_succ_self _))
      refine ⟨after, _, ended, last, ?_⟩
      rw [view_root]
      exact (jsonValueAsI64_iff isNumber _ n).mpr (toString_denotes n.toInt)

end Aholyc.Json
