import Aholyc.Lib.Scanner
import Aholyc.Text.Utf8

/-!
# The JSON decoder (lib/json/decode.hc)

The decoder walks a buffer with an offset and never looks back. `left` is what
the guards `offset < length` let it read. A scanning function answers TRUE
(`found`) or reports an error and answers FALSE (`failed`).
-/

namespace Aholyc.Json

open Aholyc.Lib.Scanner Aholyc.Text

inductive JsonType where
  | invalid | null | bool | number | string | array | object
  deriving DecidableEq, Repr

inductive JsonDecodeError where
  | ok | invalidArgument | unexpectedEnd | unexpectedToken | trailingData | invalidString
  | invalidEscape | invalidUnicode | invalidUtf8 | invalidNumber | expectedColon
  | expectedComma | maxDepth | unterminatedComment
  deriving DecidableEq, Repr

def jsonDefaultMaxDepth : Int := 128

/-- `data` is the offset of the value's first byte in the buffer. -/
structure CJsonValue where
  data : Nat
  length : Nat
  type : JsonType
  allowComments : Bool
  deriving DecidableEq, Repr

/-- `data` holds the `length` bytes of the buffer; `none` stands for a null
pointer or a negative length. `values` lists what the calls have stored
through their `value` argument, in order. -/
structure CJsonDecoder where
  data : Option (List UInt8)
  offset : Nat
  error : JsonDecodeError
  errorOffset : Nat
  maxDepth : Int
  allowComments : Bool
  values : List CJsonValue
  deriving DecidableEq

namespace CJsonDecoder

def left (decoder : CJsonDecoder) : List UInt8 :=
  (decoder.data.getD []).drop decoder.offset

def skip (count : Nat) (decoder : CJsonDecoder) : CJsonDecoder :=
  { decoder with offset := decoder.offset + count }

def cursor : Cursor CJsonDecoder UInt8 where
  left := left
  skip := skip
  left_skip count decoder := by simp [left, skip, List.drop_drop]
  skip_zero decoder := rfl
  skip_skip first second decoder := by simp [skip, Nat.add_assoc]

end CJsonDecoder

open CJsonDecoder

abbrev Scan := Outcome CJsonDecoder

def byte (ch : Char) : UInt8 := ch.toUInt8

def jsonDecodeFail (decoder : CJsonDecoder) (error : JsonDecodeError) : Scan :=
  if decoder.error = .ok then
    .failed { decoder with error := error, errorOffset := decoder.offset }
  else .failed decoder

def jsonDecodeIsSpace (ch : UInt8) : Bool :=
  ch = byte ' ' || ch = byte '\t' || ch = byte '\n' || ch = byte '\r'

def isLineEnd (ch : UInt8) : Bool := ch = byte '\n' || ch = byte '\r'

/-- The loop over the body of a block comment: how far the next star and slash
are, if they come at all. -/
def blockLength : List UInt8 → Option Nat
  | first :: second :: rest =>
      if first = byte '*' ∧ second = byte '/' then some 0
      else (blockLength (second :: rest)).map (· + 1)
  | _ => none

/-- One round of the loop of `JsonDecodeSkipSpace`; `none` is its `break`. -/
def skipSpaceRound (comments : Bool) (decoder : CJsonDecoder) : Option Scan :=
  match decoder.left with
  | [] => none
  | first :: rest =>
      if jsonDecodeIsSpace first then some (.found (skip 1 decoder))
      else if comments && first = byte '/' && rest.head? = some (byte '/') then
        some (.found (skipWhile cursor (fun ch => !isLineEnd ch) (skip 2 decoder)))
      else if comments && first = byte '/' && rest.head? = some (byte '*') then
        match blockLength (rest.drop 1) with
        | some count => some (.found (skip 2 (skip count (skip 2 decoder))))
        | none => some (jsonDecodeFail (skip (rest.length + 1) decoder) .unterminatedComment)
      else none

def jsonDecodeSkipSpace (decoder : CJsonDecoder) : Scan :=
  repeatScan (skipSpaceRound decoder.allowComments) (decoder.left.length + 1) decoder

def isDigit (ch : UInt8) : Bool := within (byte '0') (byte '9') ch

def jsonDecodeHex (ch : UInt8) : Option Nat :=
  if isDigit ch then some (ch.toNat - (byte '0').toNat)
  else if within (byte 'a') (byte 'f') ch then some (ch.toNat - (byte 'a').toNat + 10)
  else if within (byte 'A') (byte 'F') ch then some (ch.toNat - (byte 'A').toNat + 10)
  else none

/-- The loop over `count` digits: the number read, and where it stops. -/
def hexDigits : Nat → Nat → CJsonDecoder → CJsonDecoder × Option Nat
  | 0, value, decoder => (decoder, some value)
  | count + 1, value, decoder =>
      match decoder.left with
      | [] => (decoder, none)
      | ch :: _ =>
          match jsonDecodeHex ch with
          | none => (skip 1 decoder, none)
          | some digit => hexDigits count (value <<< 4 ||| digit) (skip 1 decoder)

def jsonDecodeScanHex4 (decoder : CJsonDecoder) (next : Nat → CJsonDecoder → Scan) : Scan :=
  if decoder.left.length < 4 then jsonDecodeFail decoder .invalidUnicode
  else
    match hexDigits 4 0 decoder with
    | (after, none) => jsonDecodeFail after .invalidUnicode
    | (after, some codepoint) => next codepoint after

def isSimpleEscape (ch : UInt8) : Bool :=
  ch = byte '"' || ch = byte '\\' || ch = byte '/' || ch = byte 'b' || ch = byte 'f' ||
    ch = byte 'n' || ch = byte 'r' || ch = byte 't'

def scanLowSurrogate (decoder : CJsonDecoder) : Scan :=
  if decoder.left.take 2 = [byte '\\', byte 'u'] then
    jsonDecodeScanHex4 (skip 2 decoder) fun low after =>
      if low < 0xDC00 || low > 0xDFFF then jsonDecodeFail after .invalidUnicode
      else .found after
  else jsonDecodeFail decoder .invalidUnicode

def scanEscape (decoder : CJsonDecoder) : Scan :=
  match decoder.left with
  | [] => jsonDecodeFail decoder .invalidEscape
  | ch :: _ =>
      if isSimpleEscape ch then .found (skip 1 decoder)
      else if ch ≠ byte 'u' then jsonDecodeFail (skip 1 decoder) .invalidEscape
      else
        jsonDecodeScanHex4 (skip 1 decoder) fun high after =>
          if high ≥ 0xD800 && high ≤ 0xDBFF then scanLowSurrogate after
          else if high ≥ 0xDC00 && high ≤ 0xDFFF then jsonDecodeFail after .invalidUnicode
          else .found after

/-- One round of the loop over the characters of a string; it is left at the
closing quote and at the end of the text. -/
def scanStringRound (decoder : CJsonDecoder) : Option Scan :=
  match decoder.left with
  | [] => none
  | ch :: _ =>
      if ch = byte '"' then none
      else if ch < 0x20 then some (jsonDecodeFail decoder .invalidString)
      else if ch ≠ byte '\\' then
        match utf8DecodeRune decoder.left with
        | some (count, _) => some (.found (skip count decoder))
        | none => some (jsonDecodeFail decoder .invalidUtf8)
      else some (scanEscape (skip 1 decoder))

def closeString (decoder : CJsonDecoder) : Scan :=
  match decoder.left with
  | [] => jsonDecodeFail decoder .unexpectedEnd
  | _ :: _ => .found (skip 1 decoder)

def jsonDecodeScanString (decoder : CJsonDecoder) : Scan :=
  if decoder.left.head? = some (byte '"') then
    (repeatScan scanStringRound ((skip 1 decoder).left.length + 1) (skip 1 decoder)).andThen
      closeString
  else jsonDecodeFail decoder .unexpectedToken

def nextIs (p : UInt8 → Bool) (decoder : CJsonDecoder) : Bool := decoder.left.head?.any p

def scanSign (p : UInt8 → Bool) (decoder : CJsonDecoder) : CJsonDecoder :=
  if nextIs p decoder then skip 1 decoder else decoder

def scanDigits (decoder : CJsonDecoder) : Scan :=
  if nextIs isDigit decoder then .found (skipWhile cursor isDigit decoder)
  else jsonDecodeFail decoder .invalidNumber

def scanInteger (decoder : CJsonDecoder) : Scan :=
  match decoder.left with
  | [] => jsonDecodeFail decoder .invalidNumber
  | ch :: _ =>
      if ch = byte '0' then
        if nextIs isDigit (skip 1 decoder) then jsonDecodeFail (skip 1 decoder) .invalidNumber
        else .found (skip 1 decoder)
      else if within (byte '1') (byte '9') ch then .found (skipWhile cursor isDigit decoder)
      else jsonDecodeFail decoder .invalidNumber

def scanFraction (decoder : CJsonDecoder) : Scan :=
  if nextIs (· = byte '.') decoder then scanDigits (skip 1 decoder) else .found decoder

def scanExponent (decoder : CJsonDecoder) : Scan :=
  if nextIs (fun ch => ch = byte 'e' || ch = byte 'E') decoder then
    scanDigits (scanSign (fun ch => ch = byte '+' || ch = byte '-') (skip 1 decoder))
  else .found decoder

def jsonDecodeScanNumber (decoder : CJsonDecoder) : Scan :=
  (((scanInteger (scanSign (· = byte '-') decoder)).andThen scanFraction).andThen
    scanExponent).andThen fun after =>
      if after.offset = decoder.offset then jsonDecodeFail after .invalidNumber
      else .found after

def bytes (text : String) : List UInt8 := text.toList.map byte

def jsonDecodeLiteral (literal : List UInt8) (decoder : CJsonDecoder) : Scan :=
  if decoder.left.take literal.length = literal then .found (skip literal.length decoder)
  else jsonDecodeFail decoder .unexpectedToken

def store (start : CJsonDecoder) (type : JsonType) (decoder : CJsonDecoder) : Scan :=
  .found { decoder with
    values := decoder.values ++ [⟨start.offset, decoder.offset - start.offset, type,
      decoder.allowComments⟩] }

/-- The two containers, whose loops differ in the brackets and in the names. -/
inductive Kind where
  | array | object
  deriving DecidableEq

namespace Kind

def opening : Kind → UInt8
  | array => byte '['
  | object => byte '\x7b'

def closing : Kind → UInt8
  | array => byte ']'
  | object => byte '\x7d'

def type : Kind → JsonType
  | array => .array
  | object => .object

end Kind

/-- The first half of both loops: the brackets around nothing, or the loop. -/
def scanContainer (kind : Kind) (loop : CJsonDecoder → Scan) (decoder : CJsonDecoder) : Scan :=
  (jsonDecodeSkipSpace (skip 1 decoder)).andThen fun decoder =>
    if nextIs (· = kind.closing) decoder then .found (skip 1 decoder) else loop decoder

def scanItem (kind : Kind) (value : CJsonDecoder → Scan) (decoder : CJsonDecoder) : Scan :=
  match kind with
  | .array => value decoder
  | .object =>
      (jsonDecodeScanString decoder).andThen fun decoder =>
        (jsonDecodeSkipSpace decoder).andThen fun decoder =>
          if nextIs (· = byte ':') decoder then value (skip 1 decoder)
          else jsonDecodeFail decoder .expectedColon

/-- What stands behind an item: the closing bracket, or a comma and the next
round of the loop. -/
def scanSeparator (kind : Kind) (loop : CJsonDecoder → Scan) (decoder : CJsonDecoder) : Scan :=
  (jsonDecodeSkipSpace decoder).andThen fun decoder =>
    match decoder.left with
    | [] => jsonDecodeFail decoder .unexpectedEnd
    | ch :: _ =>
        if ch = kind.closing then .found (skip 1 decoder)
        else if ch ≠ byte ',' then jsonDecodeFail (skip 1 decoder) .expectedComma
        else (jsonDecodeSkipSpace (skip 1 decoder)).andThen loop

mutual

/-- The native call stack bounds the recursion; `fuel` stands for it. -/
def jsonDecodeScanValue : Nat → Nat → CJsonDecoder → Scan
  | 0, _, _ => .running
  | fuel + 1, depth, decoder =>
      (jsonDecodeSkipSpace decoder).andThen fun decoder =>
        match decoder.left with
        | [] => jsonDecodeFail decoder .unexpectedEnd
        | ch :: _ =>
            if ch = byte '"' then (jsonDecodeScanString decoder).andThen (store decoder .string)
            else if ch = byte '-' || isDigit ch then
              (jsonDecodeScanNumber decoder).andThen (store decoder .number)
            else if ch = byte 'n' then
              (jsonDecodeLiteral (bytes "null") decoder).andThen (store decoder .null)
            else if ch = byte 't' then
              (jsonDecodeLiteral (bytes "true") decoder).andThen (store decoder .bool)
            else if ch = byte 'f' then
              (jsonDecodeLiteral (bytes "false") decoder).andThen (store decoder .bool)
            else if ch = byte '[' then
              if (depth : Int) ≥ decoder.maxDepth then jsonDecodeFail decoder .maxDepth
              else
                (scanContainer .array (scanItems fuel .array depth) decoder).andThen
                  (store decoder .array)
            else if ch = byte '\x7b' then
              if (depth : Int) ≥ decoder.maxDepth then jsonDecodeFail decoder .maxDepth
              else
                (scanContainer .object (scanItems fuel .object depth) decoder).andThen
                  (store decoder .object)
            else jsonDecodeFail decoder .unexpectedToken

/-- The loops over the elements of an array and the members of an object. -/
def scanItems : Nat → Kind → Nat → CJsonDecoder → Scan
  | 0, _, _, _ => .running
  | fuel + 1, kind, depth, decoder =>
      (scanItem kind (jsonDecodeScanValue fuel (depth + 1)) decoder).andThen
        (scanSeparator kind (scanItems fuel kind depth))

end

def jsonDecoderInit (data : Option (List UInt8)) : CJsonDecoder :=
  ⟨data, 0, .ok, 0, jsonDefaultMaxDepth, false, []⟩

def jsonDecode (fuel : Nat) (decoder : CJsonDecoder) : Scan :=
  match decoder.data with
  | none => jsonDecodeFail decoder .invalidArgument
  | some text =>
      (jsonDecodeScanValue fuel 0
        { decoder with
          offset := 0, error := .ok, errorOffset := 0, values := []
          maxDepth :=
            if decoder.maxDepth < 1 then jsonDefaultMaxDepth else decoder.maxDepth }).andThen
        fun decoder =>
          (jsonDecodeSkipSpace decoder).andThen fun decoder =>
            if decoder.offset ≠ text.length then jsonDecodeFail decoder .trailingData
            else .found decoder

end Aholyc.Json
