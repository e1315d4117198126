import Aholyc.Json.Decode

/-!
# The JSON encoder (lib/json/encode.hc)

The encoder writes into the caller's buffer, or counts when there is none. Its
stack is three words of bits, one for each property of a level. `outside` records
whether a byte was written outside the buffer. Floating-point numbers enter by
the text that `%.17g` gives for them.
-/

namespace Aholyc.Json

open Aholyc.Text

inductive JsonEncodeError where
  | ok | invalidArgument | noSpace | invalidState | invalidUtf8 | invalidNumber | maxDepth
  deriving DecidableEq, Repr

def jsonEncoderMaxDepth : Nat := 63

/-- `data` holds the `capacity` bytes of the buffer; a capacity below one is an
empty one. -/
structure CJsonEncoder where
  data : Option (List UInt8)
  capacity : Nat
  length : Nat
  error : JsonEncodeError
  depth : Nat
  objectBits : BitVec 64
  commaBits : BitVec 64
  valueBits : BitVec 64
  rootWritten : Bool
  outside : Bool
  deriving DecidableEq

namespace CJsonEncoder

def setError (error : JsonEncodeError) (encoder : CJsonEncoder) : CJsonEncoder :=
  if encoder.error = .ok ∨ encoder.error = .noSpace then { encoder with error := error }
  else encoder

def fatal (encoder : CJsonEncoder) : Bool :=
  encoder.error ≠ .ok && encoder.error ≠ .noSpace

/-- `MemCpy(data + start, bytes, ...)` of all the bytes. -/
def write (start : Nat) (bytes : List UInt8) (encoder : CJsonEncoder) : CJsonEncoder :=
  match encoder.data with
  | none => encoder
  | some data =>
      if start + bytes.length ≤ encoder.capacity then
        { encoder with
          data := some (data.take start ++ bytes ++ data.drop (start + bytes.length)) }
      else { encoder with outside := true }

def overflow (encoder : CJsonEncoder) : CJsonEncoder :=
  if encoder.error = .ok then { encoder with error := .noSpace } else encoder

def count (bytes : Nat) (encoder : CJsonEncoder) : CJsonEncoder :=
  { encoder with length := encoder.length + bytes }

def putByte (byte : UInt8) (encoder : CJsonEncoder) : CJsonEncoder :=
  count 1
    (if encoder.data.isSome then
      if 0 < encoder.capacity ∧ encoder.length < encoder.capacity - 1 then
        write encoder.length [byte] encoder
      else overflow encoder
    else encoder)

def putBytes (bytes : List UInt8) (encoder : CJsonEncoder) : CJsonEncoder :=
  count bytes.length
    (if encoder.data.isSome then
      let available :=
        if 0 < encoder.capacity ∧ encoder.length < encoder.capacity - 1 then
          encoder.capacity - 1 - encoder.length
        else 0
      let copy := min bytes.length available
      let encoder := if 0 < copy then write encoder.length (bytes.take copy) encoder else encoder
      if copy < bytes.length then overflow encoder else encoder
    else encoder)

def levelBit (encoder : CJsonEncoder) : BitVec 64 := 1#64 <<< (encoder.depth - 1)

def has (bits bit : BitVec 64) : Bool := bits &&& bit ≠ 0#64

/-- `none` is FALSE, with the encoder as it is left. -/
def beforeValue (encoder : CJsonEncoder) : Bool × CJsonEncoder :=
  if encoder.fatal then (false, encoder)
  else if encoder.depth = 0 then
    if encoder.rootWritten then (false, encoder.setError .invalidState)
    else (true, { encoder with rootWritten := true })
  else
    let bit := encoder.levelBit
    if has encoder.objectBits bit then
      if ¬has encoder.valueBits bit then (false, encoder.setError .invalidState)
      else
        let encoder := { encoder with
          valueBits := encoder.valueBits &&& ~~~bit
          commaBits := encoder.commaBits ||| bit }
        (!encoder.fatal, encoder)
    else
      let encoder := if has encoder.commaBits bit then putByte (byte ',') encoder else encoder
      let encoder := { encoder with commaBits := encoder.commaBits ||| bit }
      (!encoder.fatal, encoder)

/-- The loop of `JsonEncoderQuoteUnchecked`; `run` is `text` from `start` up to `i`. -/
def quoteLoop (run : List UInt8) : List UInt8 → CJsonEncoder → CJsonEncoder
  | [], encoder => putBytes run encoder
  | ch :: text, encoder =>
      if ch = byte '"' ∨ ch = byte '\\' then
        quoteLoop [] text (putByte ch (putByte (byte '\\') (putBytes run encoder)))
      else if ch = 8 then quoteLoop [] text (putBytes (bytes "\\b") (putBytes run encoder))
      else if ch = 12 then quoteLoop [] text (putBytes (bytes "\\f") (putBytes run encoder))
      else if ch = 10 then quoteLoop [] text (putBytes (bytes "\\n") (putBytes run encoder))
      else if ch = 13 then quoteLoop [] text (putBytes (bytes "\\r") (putBytes run encoder))
      else if ch = 9 then quoteLoop [] text (putBytes (bytes "\\t") (putBytes run encoder))
      else if ch < 0x20 then
        quoteLoop [] text
          (putByte ((bytes "0123456789abcdef").getD (ch &&& 15).toNat 0)
            (putByte ((bytes "0123456789abcdef").getD (ch >>> 4).toNat 0)
              (putBytes (bytes "\\u00") (putBytes run encoder))))
      else quoteLoop (run ++ [ch]) text encoder

def quoteUnchecked (text : List UInt8) (encoder : CJsonEncoder) : CJsonEncoder :=
  putByte (byte '"') (quoteLoop [] text (putByte (byte '"') encoder))

end CJsonEncoder

open CJsonEncoder

def jsonEncoderInit (data : Option (List UInt8)) : CJsonEncoder where
  data := data.map fun data => if data = [] then data else 0 :: data.drop 1
  capacity := (data.getD []).length
  length := 0
  error := if data = some [] then .noSpace else .ok
  depth := 0
  objectBits := 0
  commaBits := 0
  valueBits := 0
  rootWritten := false
  outside := false

/-- The loop of `Utf8Valid`; each round takes at least one byte. -/
def utf8ValidLoop : Nat → List UInt8 → Bool
  | _, [] => true
  | 0, _ :: _ => false
  | fuel + 1, data =>
      match utf8DecodeRune data with
      | some (consumed, _) => utf8ValidLoop fuel (data.drop consumed)
      | none => false

def utf8Valid (data : List UInt8) : Bool := utf8ValidLoop data.length data

/-- A text argument: `none` is `NULL`; a size below zero is refused, and the bytes a
size covers are the text. -/
structure Text where
  data : Option (List UInt8)
  length : Int
  deriving DecidableEq

/-- A text with its size, as `JsonEncodeKey` and `JsonEncodeString` pass it on. -/
def Text.ofString (data : List UInt8) : Text :=
  ⟨some (data.takeWhile (· ≠ 0)), (data.takeWhile (· ≠ 0)).length⟩

/-- The bytes of a text; `none` when it is an invalid argument. -/
def Text.bytes (text : Text) : Option (List UInt8) :=
  if text.length < 0 then none
  else
    match text.data with
    | some data => some (data.take text.length.toNat)
    | none => if text.length ≠ 0 then none else some []

def answer (encoder : CJsonEncoder) : Bool × CJsonEncoder := (encoder.error = .ok, encoder)

def fail (error : JsonEncodeError) (encoder : CJsonEncoder) : Bool × CJsonEncoder :=
  (false, encoder.setError error)

def jsonEncodeKeyN (text : Text) (encoder : CJsonEncoder) : Bool × CJsonEncoder :=
  match text.bytes with
  | none => fail .invalidArgument encoder
  | some key =>
      if encoder.fatal then (false, encoder)
      else if ¬utf8Valid key then fail .invalidUtf8 encoder
      else if encoder.depth = 0 then fail .invalidState encoder
      else
        let bit := encoder.levelBit
        if ¬has encoder.objectBits bit ∨ has encoder.valueBits bit then fail .invalidState encoder
        else
          let encoder := if has encoder.commaBits bit then putByte (byte ',') encoder else encoder
          let encoder := putByte (byte ':') (quoteUnchecked key encoder)
          answer { encoder with valueBits := encoder.valueBits ||| bit }

def jsonEncodeStart (kind : Kind) (encoder : CJsonEncoder) : Bool × CJsonEncoder :=
  if encoder.depth ≥ jsonEncoderMaxDepth then fail .maxDepth encoder
  else
    match encoder.beforeValue with
    | (false, encoder) => (false, encoder)
    | (true, encoder) =>
        let encoder := putByte kind.opening encoder
        let encoder := { encoder with depth := encoder.depth + 1 }
        let bit := encoder.levelBit
        answer { encoder with
          objectBits :=
            match kind with
            | .object => encoder.objectBits ||| bit
            | .array => encoder.objectBits &&& ~~~bit
          commaBits := encoder.commaBits &&& ~~~bit
          valueBits := encoder.valueBits &&& ~~~bit }

def jsonEncodeObjectStart : CJsonEncoder → Bool × CJsonEncoder := jsonEncodeStart .object

def jsonEncodeArrayStart : CJsonEncoder → Bool × CJsonEncoder := jsonEncodeStart .array

def jsonEncodeObjectEnd (encoder : CJsonEncoder) : Bool × CJsonEncoder :=
  if encoder.depth = 0 then fail .invalidState encoder
  else
    let bit := encoder.levelBit
    if ¬has encoder.objectBits bit ∨ has encoder.valueBits bit then fail .invalidState encoder
    else
      let encoder := putByte (byte '\x7d') encoder
      answer { encoder with
        objectBits := encoder.objectBits &&& ~~~bit
        commaBits := encoder.commaBits &&& ~~~bit
        valueBits := encoder.valueBits &&& ~~~bit
        depth := encoder.depth - 1 }

def jsonEncodeArrayEnd (encoder : CJsonEncoder) : Bool × CJsonEncoder :=
  if encoder.depth = 0 then fail .invalidState encoder
  else
    let bit := encoder.levelBit
    if has encoder.objectBits bit then fail .invalidState encoder
    else
      let encoder := putByte (byte ']') encoder
      answer { encoder with
        commaBits := encoder.commaBits &&& ~~~bit
        valueBits := encoder.valueBits &&& ~~~bit
        depth := encoder.depth - 1 }

/-- The end of the functions that encode a value: `put` writes it. -/
def encodeValue (put : CJsonEncoder → CJsonEncoder) (encoder : CJsonEncoder) :
    Bool × CJsonEncoder :=
  match encoder.beforeValue with
  | (false, encoder) => (false, encoder)
  | (true, encoder) => answer (put encoder)

def jsonEncodeStringN (text : Text) (encoder : CJsonEncoder) : Bool × CJsonEncoder :=
  match text.bytes with
  | none => fail .invalidArgument encoder
  | some text =>
      if ¬utf8Valid text then fail .invalidUtf8 encoder
      else encodeValue (quoteUnchecked text) encoder

def lowDigits : Nat → Nat → List UInt8
  | 0, _ => []
  | fuel + 1, magnitude =>
      if magnitude = 0 then []
      else (48 + UInt8.ofNat (magnitude % 10)) :: lowDigits fuel (magnitude / 10)

/-- The digits of a number; `digits[24]` has room for all of a `U64`. -/
def decimal (value : Int) : List UInt8 :=
  (if value < 0 then [byte '-'] else []) ++
    ((48 + UInt8.ofNat (value.natAbs % 10)) :: lowDigits 24 (value.natAbs / 10)).reverse

def jsonEncodeI64 (value : Int64) : CJsonEncoder → Bool × CJsonEncoder :=
  encodeValue (putBytes
    (if value = Int64.minValue then Json.bytes "-9223372036854775808" else decimal value.toInt))

def noNumber (number : List UInt8) : Bool :=
  match number with
  | [] => true
  | first :: rest =>
      first = byte 'n' || first = byte 'N' || first = byte 'i' || first = byte 'I' ||
        first = byte '-' && rest.head?.any fun second =>
          second = byte 'n' || second = byte 'N' || second = byte 'i' || second = byte 'I'

def jsonEncodeF64 (number : List UInt8) (encoder : CJsonEncoder) : Bool × CJsonEncoder :=
  if noNumber number then fail .invalidNumber encoder
  else encodeValue (putBytes number) encoder

def jsonEncodeBool (value : Bool) : CJsonEncoder → Bool × CJsonEncoder :=
  encodeValue (putBytes (if value then Json.bytes "true" else Json.bytes "false"))

def jsonEncodeNull : CJsonEncoder → Bool × CJsonEncoder := encodeValue (putBytes (Json.bytes "null"))

def jsonEncoderFinish (encoder : CJsonEncoder) : Int × CJsonEncoder :=
  let encoder :=
    if encoder.depth ≠ 0 ∨ ¬encoder.rootWritten then encoder.setError .invalidState else encoder
  let encoder :=
    if encoder.data.isSome ∧ 0 < encoder.capacity then
      write (if encoder.length ≥ encoder.capacity then encoder.capacity - 1 else encoder.length) [0]
        encoder
    else encoder
  (if encoder.error = .ok then (encoder.length : Int) else -1, encoder)

/-! ## Sequences of calls -/

/-- The calls between `JsonEncoderInit` and `JsonEncoderFinish`; `F` stands for `F64`. -/
inductive Call (F : Type) where
  | start (kind : Kind)
  | finish (kind : Kind)
  | key (text : Text)
  | string (text : Text)
  | i64 (value : Int64)
  | f64 (value : F)
  | bool (value : Bool)
  | null

variable {F : Type}

def encodeCall (format : F → List UInt8) : Call F → CJsonEncoder → Bool × CJsonEncoder
  | .start .object => jsonEncodeObjectStart
  | .start .array => jsonEncodeArrayStart
  | .finish .object => jsonEncodeObjectEnd
  | .finish .array => jsonEncodeArrayEnd
  | .key text => jsonEncodeKeyN text
  | .string text => jsonEncodeStringN text
  | .i64 value => jsonEncodeI64 value
  | .f64 value => jsonEncodeF64 (format value)
  | .bool value => jsonEncodeBool value
  | .null => jsonEncodeNull

def encodeCalls (format : F → List UInt8) (calls : List (Call F)) (encoder : CJsonEncoder) :
    CJsonEncoder :=
  calls.foldl (fun encoder call => (encodeCall format call encoder).2) encoder

end Aholyc.Json
