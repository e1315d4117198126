import Mathlib

/-!
# Formats and what they hide (runtime/rt.c, lib/log/log.hc)

`hcFormat` is the formatter of the runtime, `logRedactFormat` the rewriter in front of it. A
format is read as the bytes in front of its terminating NUL. `overread` is set where the rewriter
reads behind that NUL: `MemCmp` reads as many bytes as it compares.
-/

namespace Aholyc.Log

/-! ## The formatter of the runtime -/

/-- The C library and the memory that a format may refer to. -/
structure Libc where
  snprintf : List UInt8 → Int → List UInt8
  snprintfString : List UInt8 → List UInt8 → List UInt8
  memory : Int → List UInt8

def isFlag (byte : UInt8) : Bool :=
  byte = 0x2D ∨ byte = 0x30 ∨ byte = 0x2B ∨ byte = 0x20

def isDigit (byte : UInt8) : Bool := 0x30 ≤ byte ∧ byte ≤ 0x39

def hcSpec (text : List UInt8) : List UInt8 × List UInt8 :=
  let flags := text.takeWhile isFlag
  let text := text.dropWhile isFlag
  let width := text.takeWhile isDigit
  let text := text.dropWhile isDigit
  if text.head? = some 0x2E then
    (flags ++ width ++ 0x2E :: text.tail.takeWhile isDigit, text.tail.dropWhile isDigit)
  else (flags ++ width, text)

def packed : Nat → Nat → List UInt8
  | 0, _ => []
  | n + 1, value =>
    if value % 256 = 0 then [] else UInt8.ofNat value :: packed n (value / 256)

/-- One conversion; `out` has room for 512 bytes with the NUL, `spec` for 19 behind the `%`. -/
def hcConversion (libc : Libc) (spec : List UInt8) (conv : UInt8) (a : Int) : List UInt8 :=
  let format := 0x25 :: spec.take 19
  if conv = 0x64 ∨ conv = 0x69 then (libc.snprintf (format ++ [0x6C, 0x6C, 0x64]) a).take 511
  else if conv = 0x75 then (libc.snprintf (format ++ [0x6C, 0x6C, 0x75]) a).take 511
  else if conv = 0x78 ∨ conv = 0x58 ∨ conv = 0x6F then
    (libc.snprintf (format ++ [0x6C, 0x6C, conv]) a).take 511
  else if conv = 0x70 ∨ conv = 0x50 then
    (libc.snprintf [0x25, 0x30, 0x31, 0x36, 0x6C, 0x6C, 0x58] a).take 511
  else if conv = 0x63 then packed 8 (a % 2 ^ 64).toNat
  else if conv = 0x73 then
    let text := if a = 0 then [0x28, 0x6E, 0x75, 0x6C, 0x6C, 0x29] else libc.memory a
    if spec = [] then text else libc.snprintfString (format ++ [0x73]) text
  else if conv = 0x66 ∨ conv = 0x65 ∨ conv = 0x67 then
    (libc.snprintf (format ++ [conv]) a).take 511
  else [0x25, conv]

theorem hcSpec_length (text : List UInt8) : (hcSpec text).2.length ≤ text.length := by
  have flags := (List.dropWhile_suffix isFlag (l := text)).length_le
  have width := (List.dropWhile_suffix isDigit (l := text.dropWhile isFlag)).length_le
  unfold hcSpec
  dsimp only
  split
  · have digits := (List.dropWhile_suffix isDigit
      (l := ((text.dropWhile isFlag).dropWhile isDigit).tail)).length_le
    rw [List.length_tail] at digits
    dsimp only
    omega
  · dsimp only
    omega

def hcFormat (libc : Libc) : List UInt8 → List Int → List UInt8
  | [], _ => []
  | byte :: rest, args =>
    if byte ≠ 0x25 then byte :: hcFormat libc rest args
    else if rest.head? = some 0x25 then 0x25 :: hcFormat libc rest.tail args
    else
      match (hcSpec rest).2.head? with
      | none => []
      | some conv => hcConversion libc (hcSpec rest).1 conv (args.head?.getD 0) ++
          hcFormat libc (hcSpec rest).2.tail args.tail
termination_by text => text.length
decreasing_by
  · rw [List.length_cons]
    omega
  · rw [List.length_cons, List.length_tail]
    omega
  · have length := hcSpec_length rest
    rw [List.length_cons, List.length_tail]
    omega

/-! ## Privacy -/

inductive Mode where
  | default | isPublic | isPrivate
  deriving DecidableEq, Repr

/-- `%{public}`, `%{private}` or another annotation, or none. -/
structure Annotation where
  mode : Mode
  rest : List UInt8
  overread : Bool

def publicText : List UInt8 := [0x7B, 0x70, 0x75, 0x62, 0x6C, 0x69, 0x63, 0x7D]
def privateText : List UInt8 := [0x7B, 0x70, 0x72, 0x69, 0x76, 0x61, 0x74, 0x65, 0x7D]
def logRedacted : List UInt8 := [0x3C, 0x70, 0x72, 0x69, 0x76, 0x61, 0x74, 0x65, 0x3E]

/-- What stands behind a `%`. The comparisons read 8 and 9 bytes; behind the text there is the
NUL. -/
def logAnnotation (text : List UInt8) : Annotation :=
  if text.head? = some 0x7B then
    if text.take 8 = publicText then ⟨.isPublic, text.drop 8, false⟩
    else if text.take 9 = privateText then ⟨.isPrivate, text.drop 9, false⟩
    else ⟨.default, (text.dropWhile fun byte => byte ≠ 0x7D).tail, decide (text.length + 1 < 9)⟩
  else ⟨.default, text, false⟩

def isRedactFlag (byte : UInt8) : Bool :=
  byte = 0x2D ∨ byte = 0x30 ∨ byte = 0x2B ∨ byte = 0x20 ∨ byte = 0x2E ∨
    0x30 ≤ byte ∧ byte ≤ 0x39

def logSpec (text : List UInt8) : List UInt8 × List UInt8 :=
  (text.takeWhile isRedactFlag, text.dropWhile isRedactFlag)

def hides (privacy : Bool) (mode : Mode) (conv : Option UInt8) : Bool :=
  mode = .isPrivate ∨ conv = some 0x73 ∧ mode = .default ∧ privacy

structure Redacted where
  format : List UInt8
  argv : List Int
  overread : Bool

theorem logAnnotation_length (text : List UInt8) :
    ( logAnnotation text).rest.length ≤ text.length := by
  unfold logAnnotation
  split
  · split
    · exact (List.drop_suffix _ text).length_le
    · split
      · exact (List.drop_suffix _ text).length_le
      · have skipped := (List.dropWhile_suffix (fun byte => byte ≠ 0x7D) (l := text)).length_le
        dsimp only
        rw [List.length_tail]
        omega
  · exact Nat.le_refl _

theorem logSpec_length (text : List UInt8) : (logSpec text).2.length ≤ text.length :=
  (List.dropWhile_suffix isRedactFlag).length_le

/-- The loop of `LogRedactFormat` over what is left of the format. A visible conversion is copied
from its `%`, and skipping its annotation again stops only at a closing brace. -/
def logRedactFormat (privacy : Bool) : List UInt8 → List Int → Redacted
  | [], _ => ⟨[], [], false⟩
  | byte :: rest, args =>
    if byte ≠ 0x25 then
      let more := logRedactFormat privacy rest args
      { more with format := byte :: more.format }
    else if rest.head? = some 0x25 then
      let more := logRedactFormat privacy rest.tail args
      { more with format := 0x25 :: 0x25 :: more.format }
    else
      let annotation := logAnnotation rest
      let spec := logSpec annotation.rest
      let more := logRedactFormat privacy (logSpec ( logAnnotation rest).rest).2.tail args.tail
      if hides privacy annotation.mode spec.2.head? then
        ⟨logRedacted ++ more.format, more.argv, annotation.overread || more.overread⟩
      else
        ⟨0x25 :: (spec.1 ++ spec.2.head?.toList) ++ more.format,
          (if spec.2.head?.isSome then args.head?.toList else []) ++ more.argv,
          annotation.overread || decide (rest.head? = some 0x7B ∧ 0x7D ∉ rest) || more.overread⟩
termination_by text => text.length
decreasing_by
  · rw [List.length_cons]
    omega
  · rw [List.length_cons, List.length_tail]
    omega
  · have length := logAnnotation_length rest
    have length' := logSpec_length ( logAnnotation rest).rest
    rw [List.length_cons, List.length_tail]
    omega

def logHasAnnotation : List UInt8 → Bool
  | [] => false
  | byte :: rest => byte = 0x25 ∧ rest.head? = some 0x7B ∨ logHasAnnotation rest

def logDispatch (libc : Libc) (privacy : Bool) (fmt : List UInt8) (args : List Int) :
    List UInt8 :=
  if privacy || logHasAnnotation fmt then
    let safe := logRedactFormat privacy fmt args
    hcFormat libc safe.format safe.argv
  else hcFormat libc fmt args

/-! ## What it is for -/

def publicNote : List UInt8 := [0x70, 0x75, 0x62, 0x6C, 0x69, 0x63]
def privateNote : List UInt8 := [0x70, 0x72, 0x69, 0x76, 0x61, 0x74, 0x65]

/-- The note between the braces behind a `%`, and what is behind it; an open brace takes the rest
of the text. -/
def noteOf (text : List UInt8) : List UInt8 × List UInt8 :=
  if text.head? ≠ some 0x7B then ([], text)
  else if 0x7D ∉ text then ([], [])
  else ((text.takeWhile (· ≠ 0x7D)).tail, (text.dropWhile (· ≠ 0x7D)).tail)

/-- What is noted as private is secret, and in privacy mode any string that is not noted as
public. -/
def isSecret (privacy : Bool) (note : List UInt8) (conv : Option UInt8) : Bool :=
  note = privateNote || privacy && conv = some 0x73 && note ≠ publicNote

theorem noteOf_length (text : List UInt8) : (noteOf text).2.length ≤ text.length := by
  unfold noteOf
  split
  · exact Nat.le_refl _
  split
  · exact Nat.zero_le _
  · have skipped := (List.dropWhile_suffix (· ≠ (0x7D : UInt8)) (l := text)).length_le
    dsimp only
    rw [List.length_tail]
    omega

/-- The text of a format with annotations: the runtime's conversions, each with its own argument,
but for the secret ones. -/
def redactedText (libc : Libc) (privacy : Bool) : List UInt8 → List Int → List UInt8
  | [], _ => []
  | byte :: rest, args =>
    if byte ≠ 0x25 then byte :: redactedText libc privacy rest args
    else if rest.head? = some 0x25 then 0x25 :: redactedText libc privacy rest.tail args
    else
      let spec := hcSpec (noteOf rest).2
      let more := redactedText libc privacy (hcSpec (noteOf rest).2).2.tail args.tail
      if isSecret privacy (noteOf rest).1 spec.2.head? then logRedacted ++ more
      else
        match spec.2.head? with
        | none => []
        | some conv => hcConversion libc spec.1 conv (args.head?.getD 0) ++ more
termination_by text => text.length
decreasing_by
  · rw [List.length_cons]
    omega
  · rw [List.length_cons, List.length_tail]
    omega
  · have length := noteOf_length rest
    have length' := hcSpec_length (noteOf rest).2
    rw [List.length_cons, List.length_tail]
    omega

def hidden (privacy : Bool) : List UInt8 → List Bool
  | [] => []
  | byte :: rest =>
    if byte ≠ 0x25 then hidden privacy rest
    else if rest.head? = some 0x25 then hidden privacy rest.tail
    else
      isSecret privacy (noteOf rest).1 (hcSpec (noteOf rest).2).2.head? ::
        hidden privacy (hcSpec (noteOf rest).2).2.tail
termination_by text => text.length
decreasing_by
  · rw [List.length_cons]
    omega
  · rw [List.length_cons, List.length_tail]
    omega
  · have length := noteOf_length rest
    have length' := hcSpec_length (noteOf rest).2
    rw [List.length_cons, List.length_tail]
    omega

end Aholyc.Log
