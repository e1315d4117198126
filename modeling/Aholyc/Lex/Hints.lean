import Mathlib.Data.List.TakeWhile
import Mathlib.Tactic.Common
import Aholyc.Lib.Fallible

/-!
# Hints in comments (src/lexhints.c)

A comment in front of a declaration may carry `@bits`, `@align` and attribute hints. They
are pending until the next token, which takes them.
-/

namespace Aholyc.Lex

open Aholyc.Lib

def byte (c : Char) : UInt8 := c.toUInt8

def bytes (text : String) : List UInt8 := text.toList.map byte

/-- How the lexer ends early: with a reported error, or with an access outside of a buffer.
The file name in front of the message is left out. -/
inductive Stop
  | outside
  | error (line : Option (BitVec 32)) (message : String)
  deriving DecidableEq, Repr

abbrev Lexing := Except Stop

structure LexHints where
  bits : Nat := 0
  /-- -1 for the natural alignment, 0 if absent. -/
  align : Int := 0
  attrs : BitVec 32 := 0
  deriving DecidableEq, Repr

def hintInline : BitVec 32 := 1

def hintNoinline : BitVec 32 := 2

def hintNonnull : BitVec 32 := 4

/-- What comments depend on besides their text. `buildFlags` is what becomes of the words of a
`@pkgconfig` hint (`true`) or of another build flag: an error, or nothing that the lexer sees. -/
structure Config where
  useHints : Bool
  buildFlags : Bool → List UInt8 → Option String

def isDigit (c : UInt8) : Bool := byte '0' ≤ c && c ≤ byte '9'

def isLetter (c : UInt8) : Bool :=
  byte 'a' ≤ c && c ≤ byte 'z' || byte 'A' ≤ c && c ≤ byte 'Z'

def commentSpace (c : UInt8) : Bool := c ∈ bytes " \t\r\n"

def hintIdentCont (c : UInt8) : Bool := c == byte '_' || isLetter c || isDigit c

def hintIs (word name : List UInt8) : Bool :=
  BitVec.ofNat 32 word.length == BitVec.ofNat 32 name.length && word.take name.length == name

def startsWithByte (c : UInt8) (text : List UInt8) : Bool := text.head? == some c

/-- `q < end && !comment_space (*q) && *q != '@'`. -/
def malformed (text : List UInt8) : Bool :=
  text.head?.any fun c => !commentSpace c && c != byte '@'

/-- The digits of a hint's number; the number stops growing above `limit`. -/
def hintNumber (limit : Nat) (digits : List UInt8) : Nat :=
  digits.foldl (fun a c => if a ≤ limit then a * 10 + (c - byte '0').toNat else a) 0

section

variable (line : BitVec 32)

def fail {α : Type} (message : String) : Lexing α := .error (.error (some line) message)

def alignValue (text : List UInt8) : Lexing (Int × List UInt8) :=
  let q := text.dropWhile commentSpace
  if startsWithByte (byte '=') q then
    let q := q.tail.dropWhile commentSpace
    let a := hintNumber 0x100000 (q.takeWhile isDigit)
    let rest := q.dropWhile isDigit
    if a < 1 ∨ a > 0x100000 ∨ a &&& (a - 1) ≠ 0 then fail line "@align must be a power of two"
    else if malformed rest then fail line "malformed @align hint"
    else .ok (a, rest)
  else
    .ok (-1, q)

def bitsValue (text : List UInt8) : Lexing (Nat × List UInt8) :=
  let q := text.dropWhile commentSpace
  if !startsWithByte (byte '=') q then fail line "malformed @bits hint (expected @bits=N)"
  else
    let q := q.tail.dropWhile commentSpace
    let rest := q.dropWhile isDigit
    if !q.head?.any isDigit || malformed rest then
      fail line "malformed @bits hint (expected @bits=N)"
    else
      let width := hintNumber 128 (q.takeWhile isDigit)
      if width < 1 ∨ width > 128 then fail line "@bits width must be between 1 and 128"
      else .ok (width, rest)

def attrOf (word : List UInt8) : BitVec 32 :=
  if hintIs word (bytes "inline") then hintInline
  else if hintIs word (bytes "noinline") then hintNoinline
  else if hintIs word (bytes "nonnull") then hintNonnull
  else 0

def shown (word : List UInt8) : String := String.ofList (word.map fun c => Char.ofNat c.toNat)

def flagHint (cfg : Config) (pkg : Bool) (word text : List UInt8) : Lexing (List UInt8) :=
  let q := text.dropWhile commentSpace
  if !startsWithByte (byte '=') q then
    fail line ("malformed @" ++ shown word ++ " hint (expected =" ++
      (if pkg then "name" else "flags") ++ ")")
  else
    let isRest := fun c => c != byte '\n' && c != byte '\r'
    match cfg.buildFlags pkg (q.tail.takeWhile isRest) with
    | some message => .error (.error none message)
    | none => .ok (q.tail.dropWhile isRest)

/-- The hint behind an `@`, if it is one, and where the scan goes on. -/
def scanHint (cfg : Config) (pending : LexHints) (text : List UInt8) :
    Lexing (LexHints × List UInt8) := do
  let word := text.takeWhile hintIdentCont
  let q := text.dropWhile hintIdentCont
  let hint := attrOf word
  if hintIs word (bytes "align") then
    let (a, rest) ← alignValue line q
    if pending.align ≠ 0 then fail line "duplicate @align hint before declaration"
    else return ({ pending with align := a }, rest)
  else if hint ≠ 0 then
    if pending.attrs &&& hint ≠ 0 ∨
        hint &&& (hintInline ||| hintNoinline) ≠ 0 ∧
          pending.attrs &&& (hintInline ||| hintNoinline) ≠ 0 then
      fail line "duplicate or conflicting hint before declaration"
    else return ({ pending with attrs := pending.attrs ||| hint }, q)
  else if hintIs word (bytes "pkgconfig") || hintIs word (bytes "cflags") ||
      hintIs word (bytes "ldflags") then
    let rest ← flagHint line cfg (hintIs word (bytes "pkgconfig")) word q
    return (pending, rest)
  else if hintIs word (bytes "bits") then
    let (width, rest) ← bitsValue line q
    if pending.bits ≠ 0 then fail line "duplicate @bits hint before declaration"
    else return ({ pending with bits := width }, rest)
  else
    return (pending, text)

/-! ## The scan ends -/

section

variable {line} {text rest : List UInt8}

theorem alignValue_suffix {a : Int} (ended : alignValue line text = .ok (a, rest)) :
    rest <:+ text := by
  have front := List.dropWhile_suffix commentSpace (l := text)
  unfold alignValue at ended
  dsimp only at ended
  split at ended
  · split at ended
    · cases ended
    split at ended
    · cases ended
    · injection ended with same
      injection same with _ same
      rw [← same]
      apply (List.dropWhile_suffix isDigit).trans
      apply (List.dropWhile_suffix commentSpace).trans
      exact (List.tail_suffix _).trans front
  · injection ended with same
    injection same with _ same
    rw [← same]
    exact front

theorem bitsValue_suffix {width : Nat} (ended : bitsValue line text = .ok (width, rest)) :
    rest <:+ text := by
  unfold bitsValue at ended
  dsimp only at ended
  split at ended
  · cases ended
  split at ended
  · cases ended
  split at ended
  · cases ended
  · injection ended with same
    injection same with _ same
    rw [← same]
    apply (List.dropWhile_suffix isDigit).trans
    apply (List.dropWhile_suffix commentSpace).trans
    exact (List.tail_suffix _).trans (List.dropWhile_suffix commentSpace)

theorem flagHint_suffix {cfg : Config} {pkg : Bool} {word : List UInt8}
    (ended : flagHint line cfg pkg word text = .ok rest) : rest <:+ text := by
  unfold flagHint at ended
  dsimp only at ended
  split at ended
  · cases ended
  · split at ended
    · cases ended
    · injection ended with same
      rw [← same]
      apply (List.dropWhile_suffix _).trans
      exact (List.tail_suffix _).trans (List.dropWhile_suffix commentSpace)

theorem scanHint_suffix {cfg : Config} {pending after : LexHints}
    (ended : scanHint line cfg pending text = .ok (after, rest)) : rest <:+ text := by
  have word := List.dropWhile_suffix hintIdentCont (l := text)
  unfold scanHint at ended
  dsimp only at ended
  split at ended
  · obtain ⟨value, isValue, ended⟩ := bind_ok_iff.mp ended
    split at ended
    · cases ended
    · injection ended with same
      injection same with _ same
      rw [← same]
      exact (alignValue_suffix isValue).trans word
  · split at ended
    · split at ended
      · cases ended
      · injection ended with same
        injection same with _ same
        rw [← same]
        exact word
    · split at ended
      · obtain ⟨value, isValue, ended⟩ := bind_ok_iff.mp ended
        injection ended with same
        injection same with _ same
        rw [← same]
        exact (flagHint_suffix isValue).trans word
      · split at ended
        · obtain ⟨value, isValue, ended⟩ := bind_ok_iff.mp ended
          split at ended
          · cases ended
          · injection ended with same
            injection same with _ same
            rw [← same]
            exact (bitsValue_suffix isValue).trans word
        · injection ended with same
          injection same with _ same
          cases same
          exact List.suffix_rfl

end

def scanHints (cfg : Config) (pending : LexHints) (text : List UInt8) : Lexing LexHints :=
  match text with
  | [] => .ok pending
  | c :: text =>
    if c ≠ byte '@' then scanHints cfg pending text
    else
      match _ended : scanHint line cfg pending text with
      | .error stop => .error stop
      | .ok (after, rest) => scanHints cfg after rest
termination_by text.length
decreasing_by
  · exact Nat.lt_succ_self _
  · exact Nat.lt_succ_of_le (scanHint_suffix _ended).length_le

def lexHintsScanComment (cfg : Config) (pending : LexHints) (text : List UInt8) :
    Lexing LexHints :=
  if cfg.useHints then scanHints line cfg pending text else .ok pending

end

end Aholyc.Lex
