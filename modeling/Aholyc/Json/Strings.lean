import Aholyc.Json.Encoded
import Aholyc.Json.Query

/-!
# Strings of a decoded value

`JsonValueCopyString` writes what it decodes as far as there is room and goes on to count;
`JsonValueStringEqualsN` compares in place. Both are about the bytes that the string stands for.
-/

namespace Aholyc.Json

open Aholyc.Lib.Scanner Aholyc.Text
open Computability

variable {F : Type}

/-! ## The functions -/

structure Output where
  data : Option (List UInt8)
  out : Nat
  deriving DecidableEq

namespace Output

/-- `if (output && out < capacity) output[out] = ch; out++`. -/
def put (capacity : Int) (output : Output) (ch : UInt8) : Output where
  data := if output.out < capacity then output.data.map (·.set output.out ch) else output.data
  out := output.out + 1

end Output

def copyLoop (capacity : Int) : Nat → List UInt8 → Output → Output
  | 0, _, output => output
  | _ + 1, [], output => output
  | fuel + 1, ch :: rest, output =>
      if rest = [] then output
      else
        copyLoop capacity fuel (stringRound ch rest).2
          ((stringRound ch rest).1.foldl (Output.put capacity) output)

/-- What `JsonValueCopyString` answers, the buffer it leaves, and `*decoded_length` where it is
set. -/
def jsonValueCopyString (value : JsonView) (output : Option (List UInt8)) (capacity : Int) :
    Bool × Option (List UInt8) × Option Nat :=
  if value.type ≠ .string ∨ value.data.length < 2 ∨ capacity < 0 then (false, output, none)
  else
    let copied := copyLoop capacity value.data.length (value.data.drop 1) ⟨output, 0⟩
    match copied.data with
    | none => (true, none, some copied.out)
    | some data =>
        if copied.out ≥ capacity then (false, some data, some copied.out)
        else (true, some (data.set copied.out 0), some copied.out)

/-- `JsonValueStringEqualsN` with its guard; the loop is `equalsString`. -/
def stringEqualsN (value : JsonView) (text : Text) : Bool :=
  if value.type ≠ .string ∨ value.data.length < 2 ∨ text.length < 0 then false
  else
    match text.data with
    | none => false
    | some data => jsonValueStringEqualsN value.data (data.take text.length.toNat)

def jsonValueStringEquals (value : JsonView) (text : List UInt8) : Bool :=
  stringEqualsN value (Text.ofString text)

/-! ## Writing as far as there is room -/

theorem foldl_put (capacity : Int) (bytes : List UInt8) {data : List UInt8}
    (inside : capacity.toNat ≤ data.length) :
    bytes.foldl (Output.put capacity) ⟨some data, 0⟩ =
      ⟨some (bytes.take capacity.toNat ++ data.drop (min bytes.length capacity.toNat)),
        bytes.length⟩ := by
  induction bytes using List.reverseRecOn with
  | nil => simp
  | append_singleton bytes ch ih =>
    rw [List.foldl_append, ih, List.foldl_cons, List.foldl_nil, Output.put, List.length_append,
      List.length_singleton]
    by_cases room : (bytes.length : Int) < capacity
    · have fits : bytes.length < capacity.toNat := by omega
      have next : data.drop bytes.length = data[bytes.length] :: data.drop (bytes.length + 1) :=
        List.drop_eq_getElem_cons (by omega)
      have whole : (bytes ++ [ch]).length ≤ capacity.toNat := by
        rw [List.length_append, List.length_singleton]
        omega
      rw [if_pos room, List.take_of_length_le (Nat.le_of_lt fits), List.take_of_length_le whole,
        Nat.min_eq_left (Nat.le_of_lt fits), Nat.min_eq_left fits, next, Option.map_some,
        List.set_append_right _ _ (Nat.le_refl _), Nat.sub_self, List.set_cons_zero,
        List.append_assoc, List.singleton_append]
    · have full : capacity.toNat ≤ bytes.length := by omega
      rw [if_neg room, List.take_append_of_le_length full, Nat.min_eq_right full,
        Nat.min_eq_right (Nat.le_succ_of_le full)]

theorem foldl_put_none (capacity : Int) (bytes : List UInt8) (out : Nat) :
    bytes.foldl (Output.put capacity) ⟨none, out⟩ = ⟨none, out + bytes.length⟩ := by
  induction bytes generalizing out with
  | nil => rfl
  | cons ch bytes ih =>
    have counted : Output.put capacity ⟨none, out⟩ ch = ⟨none, out + 1⟩ := by
      unfold Output.put
      dsimp only [Option.map_none]
      rw [ite_self]
    rw [List.foldl_cons, counted, ih, List.length_cons]
    congr 1
    omega

/-- The loop puts out the bytes that the string stands for. -/
theorem copyLoop_eq (capacity : Int) (fuel : Nat) (rest : List UInt8) (output : Output) :
    copyLoop capacity fuel rest output =
      (copyString fuel rest).foldl (Output.put capacity) output := by
  induction fuel generalizing rest output with
  | zero => rfl
  | succ fuel ih =>
    cases rest with
    | nil => rfl
    | cons ch rest =>
      unfold copyLoop copyString
      split
      · rfl
      · rw [ih, List.foldl_append]

/-! ## What a view stands for -/

def StandsFor (view : JsonView) (contents : List UInt8) : Prop :=
  view.type = .string ∧ view.data ∈ Json.string ∧ jsonValueString view.data = contents

theorem string_quotes {word : List UInt8} (isString : word ∈ Json.string) : 2 ≤ word.length := by
  obtain ⟨_, isOpened, close, isClose, rfl⟩ := Language.mem_mul.mp isString
  obtain ⟨opening, isOpening, body, _, rfl⟩ := Language.mem_mul.mp isOpened
  have opens : opening = bytes "\"" := isOpening
  have closes : close = bytes "\"" := isClose
  rw [opens, closes, List.length_append, List.length_append]
  have quotes : (bytes "\"").length = 1 := rfl
  omega

variable {view : JsonView} {contents : List UInt8}

theorem StandsFor.guard (stands : StandsFor view contents) {size : Int} (notNegative : 0 ≤ size) :
    ¬(view.type ≠ .string ∨ view.data.length < 2 ∨ size < 0) := by
  have long := string_quotes stands.2.1
  rintro (other | short | negative)
  · exact other stands.1
  · omega
  · omega

theorem StandsFor.sizing (stands : StandsFor view contents) {capacity : Int}
    (notNegative : 0 ≤ capacity) :
    jsonValueCopyString view none capacity = (true, none, some contents.length) := by
  unfold jsonValueCopyString
  have bytes : copyString view.data.length (view.data.drop 1) = contents := stands.2.2
  rw [if_neg (stands.guard notNegative), copyLoop_eq, foldl_put_none, Nat.zero_add, bytes]

/-- What is written, with a NUL where there is room for it. -/
theorem StandsFor.copying (stands : StandsFor view contents) {capacity : Int}
    (notNegative : 0 ≤ capacity) {data : List UInt8} (inside : capacity ≤ data.length) :
    jsonValueCopyString view (some data) capacity =
      (decide (contents.length < capacity),
        some (if contents.length < capacity then contents ++ 0 :: data.drop (contents.length + 1)
          else contents.take capacity.toNat ++ data.drop capacity.toNat),
        some contents.length) := by
  unfold jsonValueCopyString
  have bytes : copyString view.data.length (view.data.drop 1) = contents := stands.2.2
  rw [if_neg (stands.guard notNegative), copyLoop_eq, bytes, foldl_put capacity contents (by omega)]
  dsimp only
  by_cases room : (contents.length : Int) < capacity
  · have fits : contents.length < capacity.toNat := by omega
    have next : data.drop contents.length =
        data[contents.length] :: data.drop (contents.length + 1) :=
      List.drop_eq_getElem_cons (by omega)
    rw [if_neg (by omega), if_pos room, decide_eq_true room, Nat.min_eq_left (Nat.le_of_lt fits),
      List.take_of_length_le (Nat.le_of_lt fits), next, List.set_append_right _ _ (Nat.le_refl _),
      Nat.sub_self, List.set_cons_zero]
  · rw [if_pos (by omega), if_neg room, decide_eq_false room, Nat.min_eq_right (by omega)]

theorem StandsFor.equals (stands : StandsFor view contents) (text : List UInt8) :
    stringEqualsN view ⟨some text, text.length⟩ = decide (contents = text) := by
  unfold stringEqualsN
  rw [if_neg (stands.guard (Int.natCast_nonneg text.length))]
  dsimp only
  rw [Int.toNat_natCast, List.take_length, jsonValueStringEqualsN_eq, stands.2.2]

/-- A string that the decoder stores stands for some bytes. -/
theorem decoded_stands {fuel : Nat} {decoder after : CJsonDecoder} {text : List UInt8}
    (ended : jsonDecode fuel { decoder with data := some text } = .found after)
    {value : CJsonValue} (stored : value ∈ after.values) (isString : value.type = .string) :
    ∃ contents, StandsFor (value.view text) contents := by
  obtain ⟨_, nesting, values, derives, last⟩ := jsonDecode_spans ended value stored
  refine ⟨_, isString, ?_, rfl⟩
  have covers : (value.view text).data = slice text value.data value.length := rfl
  rw [covers]
  generalize slice text value.data value.length = word at derives ⊢
  have other (start : Nat) (source : List UInt8) (type : JsonType) (notString : type ≠ .string)
      (same : some (span decoder.allowComments start source type) = some value) :
      word ∈ Json.string := by
    cases same
    exact absurd isString notString
  cases derives with
  | literal _ _ _ type isLiteral =>
    apply other _ _ type _ last
    intro same
    rw [same] at isLiteral
    simp [literals] at isLiteral
  | number => exact other _ _ .number (by decide) last
  | string _ _ _ isWord => exact isWord
  | empty kind => exact other _ _ kind.type (by cases kind <;> decide) last
  | container kind =>
    rw [List.getLast?_concat] at last
    exact other _ _ kind.type (by cases kind <;> decide) last

/-- What is encoded from a text decodes to a string that is copied out as the text; a decoded
string is equal to the bytes that are copied out of it, and has the length of the sizing call. -/
theorem jsonStrings_copied :
    (∀ (chars : List Char) (text : Text) (format : F → List UInt8),
      text.bytes = some (encode chars) → ∃ word : List UInt8,
      (∀ buffer, (finished format [.string text] buffer).1 =
          (if ∀ data ∈ buffer, word.length < data.length then (word.length : Int) else -1) ∧
        ∀ data ∈ buffer, word.length < data.length → ∃ rest,
          (finished format [.string text] buffer).2.data = some (word ++ 0 :: rest)) ∧
      ∀ (decoder : CJsonDecoder) extra, ∃ after root,
        jsonDecode (2 * word.length + 1 + extra) { decoder with data := some word } = .found after ∧
        after.values.getLast? = some root ∧
        ∀ (data : List UInt8) (capacity : Int), (encode chars).length < capacity →
          capacity ≤ data.length →
          jsonValueCopyString (root.view word) (some data) capacity =
            (true, some (encode chars ++ 0 :: data.drop ((encode chars).length + 1)),
              some (encode chars).length)) ∧
    ∀ (decoder after : CJsonDecoder) text fuel,
      jsonDecode fuel { decoder with data := some text } = .found after →
      ∀ value ∈ after.values, value.type = .string → ∃ contents : List UInt8,
        (∀ capacity, 0 ≤ capacity →
          jsonValueCopyString (value.view text) none capacity =
            (true, none, some contents.length)) ∧
        (∀ (data : List UInt8) (capacity : Int), contents.length < capacity →
          capacity ≤ data.length →
          jsonValueCopyString (value.view text) (some data) capacity =
            (true, some (contents ++ 0 :: data.drop (contents.length + 1)),
              some contents.length)) ∧
        (∀ (data : List UInt8) (capacity : Int), 0 ≤ capacity → capacity ≤ contents.length →
          capacity ≤ data.length →
          jsonValueCopyString (value.view text) (some data) capacity =
            (false, some (contents.take capacity.toNat ++ data.drop capacity.toNat),
              some contents.length)) ∧
        (∀ bytes : List UInt8,
          stringEqualsN (value.view text) ⟨some bytes, bytes.length⟩ = true ↔ contents = bytes) ∧
        ∀ bytes : List UInt8, jsonValueStringEquals (value.view text) bytes = true ↔
          contents = bytes.takeWhile (· ≠ 0) := by
  constructor
  · intro chars text format isText
    refine ⟨quote (encode chars), ?_, ?_⟩
    · intro buffer
      have scalar : (Call.string text).scalar format =
          some (quote (encode chars), .string (encode chars)) := by
        simp only [Call.scalar, isText, if_pos (utf8Valid_encode chars)]
      obtain ⟨length, written⟩ := finished_closed (outline_scalar scalar) buffer
      refine ⟨length, ?_⟩
      intro data isData room
      obtain ⟨rest, isWord, _⟩ := written data isData room
      exact ⟨rest, isWord⟩
    · intro decoder extra
      have isString := quote_mem (utf8Valid_encode chars)
      have means : Means decoder.allowComments .value (depthLimit decoder.maxDepth)
          (quote (encode chars)) [([], .string (jsonValueString (quote (encode chars))))] :=
        .string _ _ isString
      obtain ⟨after, ended, last⟩ := means.decodes (Nat.lt_add_right extra (Nat.lt_succ_self _))
      refine ⟨after, _, ended, last, ?_⟩
      intro data capacity room inside
      have stands : StandsFor ⟨quote (encode chars), .string, decoder.allowComments⟩
          (encode chars) := ⟨rfl, isString, jsonValueString_quote (encode chars)⟩
      have copied := stands.copying (by omega) inside
      rw [if_pos room, decide_eq_true room] at copied
      rw [view_root]
      exact copied
  · intro decoder after text fuel ended value stored isString
    obtain ⟨contents, stands⟩ := decoded_stands ended stored isString
    refine ⟨contents, fun capacity => stands.sizing, ?_, ?_, ?_, ?_⟩
    · intro data capacity room inside
      have copied := stands.copying (by omega) inside
      rwa [if_pos room, decide_eq_true room] at copied
    · intro data capacity notNegative full inside
      have copied := stands.copying notNegative inside
      rwa [if_neg (by omega), decide_eq_false (by omega)] at copied
    · intro bytes
      rw [stands.equals, decide_eq_true_eq]
    · intro bytes
      unfold jsonValueStringEquals Text.ofString
      rw [stands.equals, decide_eq_true_eq]

end Aholyc.Json
