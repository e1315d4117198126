import Mathlib.Tactic.Common

/-!
# Percent coding and chunked bodies

The coding functions of lib/http/http.hc. A text is the memory its pointer leads
to, `none` for `NULL`; the functions return the block they allocate, with the NUL
at its end. What is left of a text at a position is a suffix of it.
-/

namespace Aholyc.Http

def httpMaxMessage : Nat := 268435456

def httpAsciiLower (character : UInt8) : UInt8 :=
  if 'A'.toUInt8 ≤ character ∧ character ≤ 'Z'.toUInt8 then
    character + 'a'.toUInt8 - 'A'.toUInt8
  else
    character

def httpUrlByteIsUnreserved (value : UInt8) : Bool :=
  'A'.toUInt8 ≤ value && value ≤ 'Z'.toUInt8 || 'a'.toUInt8 ≤ value && value ≤ 'z'.toUInt8 ||
    '0'.toUInt8 ≤ value && value ≤ '9'.toUInt8 || value == '-'.toUInt8 ||
    value == '.'.toUInt8 || value == '_'.toUInt8 || value == '~'.toUInt8

def httpHexDigit (value : UInt8) : UInt8 :=
  if value < 10 then '0'.toUInt8 + value else 'A'.toUInt8 + value - 10

def httpHexValue (value : UInt8) : Option Nat :=
  if '0'.toUInt8 ≤ value ∧ value ≤ '9'.toUInt8 then
    some (value - '0'.toUInt8).toNat
  else
    let value := httpAsciiLower value
    if 'a'.toUInt8 ≤ value ∧ value ≤ 'f'.toUInt8 then
      some (value - 'a'.toUInt8 + 10).toNat
    else
      none

/-- The bytes a call is about: a size below zero stands for `StrLen(data)`. -/
def sized (data : List UInt8) (size : Int) : List UInt8 :=
  if size < 0 then data.takeWhile (· ≠ 0) else data.take size.toNat

/-! ## Percent and form coding -/

def encodeByte (form : Bool) (byte : UInt8) : List UInt8 :=
  if httpUrlByteIsUnreserved byte then
    [byte]
  else if form ∧ byte = ' '.toUInt8 then
    ['+'.toUInt8]
  else
    ['%'.toUInt8, httpHexDigit (byte >>> 4), httpHexDigit (byte &&& 15)]

def httpUrlEncodeMode (data : Option (List UInt8)) (size : Int) (form : Bool) :
    Option (List UInt8) :=
  match data with
  | none => none
  | some data =>
    if (sized data size).length > (httpMaxMessage - 1) / 3 then
      none
    else
      some ((sized data size).flatMap (encodeByte form) ++ [0])

def decodeBytes (form : Bool) : List UInt8 → Option (List UInt8)
  | [] => some []
  | byte :: rest =>
    if byte = '%'.toUInt8 then
      match rest with
      | high :: low :: rest => do
        let high ← httpHexValue high
        let low ← httpHexValue low
        let decoded ← decodeBytes form rest
        some (UInt8.ofNat (high <<< 4 ||| low) :: decoded)
      | _ => none
    else do
      let decoded ← decodeBytes form rest
      some ((if form ∧ byte = '+'.toUInt8 then ' '.toUInt8 else byte) :: decoded)

def httpUrlDecodeMode (data : Option (List UInt8)) (size : Int) (form : Bool) :
    Option (List UInt8 × Nat) := do
  let decoded ← decodeBytes form (sized (← data) size)
  some (decoded ++ [0], decoded.length)

/-! ## Chunked bodies -/

/-- The digits of a chunk's size, up to its end or an extension: the size, whether
there was a digit, and what is left. -/
def sizeDigits (size : Nat) (haveDigit : Bool) : List UInt8 → Option (Nat × Bool × List UInt8)
  | [] => some (size, haveDigit, [])
  | byte :: rest =>
    if byte ≠ '\r'.toUInt8 ∧ byte ≠ ';'.toUInt8 then
      match httpHexValue byte with
      | none => none
      | some digit =>
        if size <<< 4 ||| digit > httpMaxMessage then
          none
        else
          sizeDigits (size <<< 4 ||| digit) true rest
    else
      some (size, haveDigit, byte :: rest)

inductive Round
  | failed
  | done
  | next (rest decoded : List UInt8)
  deriving DecidableEq

def chunkRound (rest decoded : List UInt8) : Round :=
  match sizeDigits 0 false rest with
  | none => .failed
  | some (size, haveDigit, rest) =>
    if ¬haveDigit then
      .failed
    else
      match rest.dropWhile (· ≠ '\r'.toUInt8) with
      | _ :: lf :: rest =>
        if lf ≠ '\n'.toUInt8 then
          .failed
        else if size = 0 then
          .done
        else if size + 2 > rest.length ∨ rest.getD size 0 ≠ '\r'.toUInt8 ∨
            rest.getD (size + 1) 0 ≠ '\n'.toUInt8 ∨ decoded.length > httpMaxMessage - size then
          .failed
        else
          .next (rest.drop (size + 2)) (decoded ++ rest.take size)
      | _ => .failed

theorem sizeDigits_length {size size' : Nat} {haveDigit haveDigit' : Bool}
    {input rest : List UInt8}
    (read : sizeDigits size haveDigit input = some (size', haveDigit', rest)) :
    rest.length ≤ input.length := by
  induction input generalizing size haveDigit with
  | nil =>
    cases read
    exact Nat.le_refl _
  | cons byte input ih =>
    unfold sizeDigits at read
    split at read
    · split at read
      · cases read
      · split at read
        · cases read
        · have le := ih read
          rw [List.length_cons]
          omega
    · cases read
      exact Nat.le_refl _

theorem chunkRound_shorter {rest decoded rest' decoded' : List UInt8}
    (goesOn : chunkRound rest decoded = .next rest' decoded') : rest'.length < rest.length := by
  unfold chunkRound at goesOn
  split at goesOn
  · cases goesOn
  next size haveDigit left read =>
    have digits := sizeDigits_length read
    split at goesOn
    · cases goesOn
    split at goesOn
    next cr lf data isLine =>
      have line : (cr :: lf :: data).length ≤ left.length := by
        rw [← isLine]
        exact (List.dropWhile_sublist _).length_le
      simp only [List.length_cons] at line
      split at goesOn
      · cases goesOn
      split at goesOn
      · cases goesOn
      split at goesOn
      · cases goesOn
      · cases goesOn
        rw [List.length_drop]
        omega
    · cases goesOn

def chunkLoop (rest decoded : List UInt8) : Option (List UInt8) :=
  if rest = [] then
    none
  else
    match _goesOn : chunkRound rest decoded with
    | .failed => none
    | .done => some decoded
    | .next rest' decoded' => chunkLoop rest' decoded'
termination_by rest.length
decreasing_by exact chunkRound_shorter _goesOn

def httpDecodeChunked (encoded : List UInt8) : Option (List UInt8 × Nat) := do
  let decoded ← chunkLoop encoded []
  some (decoded ++ [0], decoded.length)

end Aholyc.Http
