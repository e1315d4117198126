import Aholyc.Json.Decode

/-!
# The texts the decoder is for

The grammar of RFC 8259, with line and block comments as white space when they
are allowed. Tokens are languages; a value is a derivation that knows where it
starts and which spans its subvalues and it cover.
-/

namespace Aholyc.Json

open Aholyc.Lib.Scanner Aholyc.Text
open Computability

/-! ## Numbers -/

def digits : Language UInt8 := oneOf isDigit * wordsOf isDigit

def integer : Language UInt8 :=
  {bytes "0"} + oneOf (within (byte '1') (byte '9')) * wordsOf isDigit

/-- `number = [ minus ] int [ frac ] [ exp ]` -/
def number : Language UInt8 :=
  optional (oneOf (· = byte '-')) * integer * optional (oneOf (· = byte '.') * digits) *
    optional (oneOf (fun ch => ch = byte 'e' || ch = byte 'E') *
      optional (oneOf fun ch => ch = byte '+' || ch = byte '-') * digits)

/-! ## Strings -/

def unescaped : Language UInt8 :=
  {word | ∃ ch : Char, 0x20 ≤ ch.val.toNat ∧ ch ≠ '"' ∧ ch ≠ '\\' ∧
    word = String.utf8EncodeChar ch}

def hexStep (value : Option Nat) (ch : UInt8) : Option Nat :=
  do return (← value) * 16 + (← jsonDecodeHex ch)

def hexValue (word : List UInt8) : Option Nat := word.foldl hexStep (some 0)

def unicode (p : Nat → Prop) : Language UInt8 :=
  {word | ∃ hex value, word = bytes "\\u" ++ hex ∧ hex.length = 4 ∧ hexValue hex = some value ∧
    p value}

def isHigh (value : Nat) : Prop := 0xD800 ≤ value ∧ value ≤ 0xDBFF

def isLow (value : Nat) : Prop := 0xDC00 ≤ value ∧ value ≤ 0xDFFF

/-- A simple escape, a code unit that is no surrogate, or a surrogate pair. -/
def escape : Language UInt8 :=
  {bytes "\\"} * oneOf isSimpleEscape +
    unicode (fun value => ¬isHigh value ∧ ¬isLow value) + unicode isHigh * unicode isLow

def character : Language UInt8 := unescaped + escape

def string : Language UInt8 := {bytes "\""} * character∗ * {bytes "\""}

/-! ## White space -/

def lineComment : Language UInt8 := {bytes "//"} * wordsOf fun ch => !isLineEnd ch

/-- The body of a block comment ends at the first star and slash. -/
def blockComment : Language UInt8 :=
  {word | ∃ body, ¬bytes "*/" <:+: body ++ bytes "*" ∧ word = bytes "/*" ++ body ++ bytes "*/"}

def blank (comments : Bool) : Language UInt8 :=
  oneOf jsonDecodeIsSpace +
    if comments then lineComment * oneOf isLineEnd + blockComment else 0

def space (comments : Bool) : Language UInt8 := (blank comments)∗

/-- White space at the end of the text, where a line comment needs no end. -/
def trailing (comments : Bool) : Language UInt8 :=
  space comments * if comments then optional lineComment else 1

/-! ## Values -/

/-- A value, a member of an object, or what stands between two brackets. -/
inductive Part where
  | value
  | member
  | items (kind : Kind)

def Kind.item : Kind → Part
  | .array => .value
  | .object => .member

def span (comments : Bool) (start : Nat) (word : List UInt8) (type : JsonType) : CJsonValue :=
  ⟨start, word.length, type, comments⟩

def literals : List (List UInt8 × JsonType) :=
  [(bytes "null", .null), (bytes "true", .bool), (bytes "false", .bool)]

/-- At offset `start` of the text, `word` is a `part` whose brackets nest at
most `nesting` deep, and `values` are the spans of the values in it, each
behind those it contains. -/
inductive Derives (comments : Bool) :
    Part → Nat → Nat → List UInt8 → List CJsonValue → Prop where
  | literal (nesting start : Nat) (word : List UInt8) (type : JsonType)
      (isLiteral : (word, type) ∈ literals) :
      Derives comments .value nesting start word [span comments start word type]
  | number (nesting start : Nat) (word : List UInt8) (isNumber : word ∈ number) :
      Derives comments .value nesting start word [span comments start word .number]
  | string (nesting start : Nat) (word : List UInt8) (isString : word ∈ string) :
      Derives comments .value nesting start word [span comments start word .string]
  | empty (kind : Kind) (nesting start : Nat) (gap : List UInt8)
      (isSpace : gap ∈ space comments) :
      Derives comments .value (nesting + 1) start ([kind.opening] ++ gap ++ [kind.closing])
        [span comments start ([kind.opening] ++ gap ++ [kind.closing]) kind.type]
  | container (kind : Kind) (nesting start : Nat) (gap body : List UInt8)
      (values : List CJsonValue) (isSpace : gap ∈ space comments)
      (items : Derives comments (.items kind) nesting (start + ([kind.opening] ++ gap).length)
        body values) :
      Derives comments .value (nesting + 1) start
        ([kind.opening] ++ gap ++ body ++ [kind.closing])
        (values ++ [span comments start ([kind.opening] ++ gap ++ body ++ [kind.closing]) kind.type])
  | member (nesting start : Nat) (name before after word : List UInt8)
      (values : List CJsonValue) (isName : name ∈ Json.string)
      (isSpace₁ : before ∈ space comments) (isSpace₂ : after ∈ space comments)
      (value : Derives comments .value nesting
        (start + (name ++ before ++ bytes ":" ++ after).length) word values) :
      Derives comments .member nesting start (name ++ before ++ bytes ":" ++ after ++ word) values
  | last (kind : Kind) (nesting start : Nat) (word gap : List UInt8) (values : List CJsonValue)
      (item : Derives comments kind.item nesting start word values)
      (isSpace : gap ∈ space comments) :
      Derives comments (.items kind) nesting start (word ++ gap) values
  | more (kind : Kind) (nesting start : Nat) (word before after body : List UInt8)
      (values others : List CJsonValue)
      (item : Derives comments kind.item nesting start word values)
      (isSpace₁ : before ∈ space comments) (isSpace₂ : after ∈ space comments)
      (rest : Derives comments (.items kind) nesting
        (start + (word ++ before ++ bytes "," ++ after).length) body others) :
      Derives comments (.items kind) nesting start
        (word ++ before ++ bytes "," ++ after ++ body) (values ++ others)

/-- `text` is one JSON value with white space around it; `values` are the spans
of the value and of all values in it. -/
def IsJson (comments : Bool) (nesting : Nat) (text : List UInt8) (values : List CJsonValue) :
    Prop :=
  ∃ before word after, text = before ++ word ++ after ∧ before ∈ space comments ∧
    Derives comments .value nesting before.length word values ∧ after ∈ trailing comments

/-- The nesting the decoder allows: its `max_depth`, or the default when that
is not positive. -/
def depthLimit (maxDepth : Int) : Nat :=
  (if maxDepth < 1 then jsonDefaultMaxDepth else maxDepth).toNat

def slice (text : List UInt8) (start length : Nat) : List UInt8 := (text.drop start).take length

/-- The span lies in `text`, and what it covers is a value with this span. -/
def Spans (comments : Bool) (text : List UInt8) (value : CJsonValue) : Prop :=
  value.data + value.length ≤ text.length ∧ ∃ nesting values,
    Derives comments .value nesting value.data (slice text value.data value.length) values ∧
      values.getLast? = some value

end Aholyc.Json
