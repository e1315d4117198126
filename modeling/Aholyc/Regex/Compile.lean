import Aholyc.Regex.Program

/-!
# Compiling an expression (lib/regex/regex.hc)

The compiler reads the pattern from left to right and emits instructions as it
goes. A fragment is an entry with the fields that are still to be pointed at
what follows. The first error ends the compilation: the source sets it once and
nothing later is looked at.
-/

namespace Aholyc.Regex

open Aholyc.Text

/-- The chain of `CRegexPatch` from `head` to `tail`: instruction and field. -/
abbrev Patches := List (Nat × Bool)

structure CRegexFragment where
  start : Nat
  patches : Patches

structure CRegexCompiler where
  pattern : List UInt8
  offset : Nat
  instructions : List CRegexInstruction
  ranges : List CRegexRange
  patchCount : Nat
  instructionCapacity : Nat
  rangeCapacity : Nat
  patchCapacity : Nat

/-- Why there is no program. `running` is a loop stopped by its fuel. -/
inductive Stop where
  | error (error : RegexError) (position : Nat)
  | running

abbrev Compile (α : Type) := StateT CRegexCompiler (Except Stop) α

namespace CRegexCompiler

def next (compiler : CRegexCompiler) : Option UInt8 := compiler.pattern[compiler.offset]?

def left (compiler : CRegexCompiler) : List UInt8 := compiler.pattern.drop compiler.offset

abbrev count (compiler : CRegexCompiler) : Nat := compiler.instructions.length

end CRegexCompiler

def regexCompileFail {α : Type} (error : RegexError) (position : Nat) : Compile α :=
  throw (.error error position)

def advance (count : Nat) : Compile Unit :=
  modify fun compiler => { compiler with offset := compiler.offset + count }

def regexEmit (op : RegexOp) : Compile Nat := do
  let compiler ← get
  let index := compiler.count
  if index ≥ compiler.instructionCapacity then regexCompileFail .memory compiler.offset
  else
    let instruction : CRegexInstruction := ⟨op, none, none, 0, 0, 0, false⟩
    set { compiler with instructions := compiler.instructions ++ [instruction] }
    return index

def setInstruction (index : Nat) (change : CRegexInstruction → CRegexInstruction) : Compile Unit :=
  modify fun compiler => { compiler with instructions := compiler.instructions.modify index change }

def regexPatchNew (instruction : Nat) (field : Bool) : Compile (Nat × Bool) := do
  let compiler ← get
  if compiler.patchCount ≥ compiler.patchCapacity then regexCompileFail .memory compiler.offset
  else
    set { compiler with patchCount := compiler.patchCount + 1 }
    return (instruction, field)

def regexFragmentOne (start : Nat) (field : Bool) : Compile CRegexFragment := do
  let patch ← regexPatchNew start field
  return ⟨start, [patch]⟩

def patchField (target : Nat) (field : Bool) (instruction : CRegexInstruction) :
    CRegexInstruction :=
  if field then { instruction with y := some target } else { instruction with x := some target }

def regexPatchTo (patches : Patches) (target : Nat) : Compile Unit :=
  modify fun compiler => { compiler with
    instructions := patches.foldl (fun instructions patch =>
      instructions.modify patch.1 (patchField target patch.2)) compiler.instructions }

def regexEmptyFragment : Compile CRegexFragment := do
  let instruction ← regexEmit .jump
  regexFragmentOne instruction false

def regexHexDigit (ch : UInt8) : Option Nat :=
  if 0x30 ≤ ch ∧ ch ≤ 0x39 then some (ch.toNat - 0x30)
  else if 0x61 ≤ ch ∧ ch ≤ 0x66 then some (ch.toNat - 0x61 + 10)
  else if 0x41 ≤ ch ∧ ch ≤ 0x46 then some (ch.toNat - 0x41 + 10)
  else none

def regexReadPatternRune : Compile Nat := do
  let compiler ← get
  match utf8DecodeRune compiler.left with
  | none => regexCompileFail .utf8 compiler.offset
  | some (consumed, rune) =>
      advance consumed
      return rune

def regexRangeAdd (first last : Nat) : Compile Nat := do
  let compiler ← get
  let index := compiler.ranges.length
  if index ≥ compiler.rangeCapacity then regexCompileFail .memory compiler.offset
  else
    let range : CRegexRange := ⟨first, last⟩
    set { compiler with ranges := compiler.ranges ++ [range] }
    return index

def kindRanges (kind : Nat) : List CRegexRange :=
  if kind = 'd'.toNat then [⟨'0'.toNat, '9'.toNat⟩]
  else if kind = 'w'.toNat then
    [⟨'0'.toNat, '9'.toNat⟩, ⟨'A'.toNat, 'Z'.toNat⟩, ⟨'a'.toNat, 'z'.toNat⟩, ⟨'_'.toNat, '_'.toNat⟩]
  else [⟨'\t'.toNat, '\r'.toNat⟩, ⟨' '.toNat, ' '.toNat⟩]

def regexRangesAdd : List CRegexRange → Compile Unit
  | [] => return
  | range :: rest => do
      let _ ← regexRangeAdd range.first range.last
      regexRangesAdd rest

def regexClassKind (kind : Nat) : Compile Unit := regexRangesAdd (kindRanges kind)

/-- The value and the kind of what stands behind a backslash; kind 0 is none. -/
def regexReadEscape : Compile (Nat × Nat) := do
  let compiler ← get
  if compiler.offset ≥ compiler.pattern.length then regexCompileFail .escape compiler.offset
  else
    match utf8DecodeRune compiler.left with
    | none => regexCompileFail .utf8 compiler.offset
    | some (consumed, ch) =>
        advance consumed
        if ch = 'd'.toNat ∨ ch = 'w'.toNat ∨ ch = 's'.toNat then return (0, ch)
        else if ch = 'n'.toNat then return ('\n'.toNat, 0)
        else if ch = 'r'.toNat then return ('\r'.toNat, 0)
        else if ch = 't'.toNat then return ('\t'.toNat, 0)
        else if ch = 'f'.toNat then return (12, 0)
        else if ch = 'v'.toNat then return (11, 0)
        else if ch = 'x'.toNat then
          let compiler ← get
          match compiler.left with
          | first :: second :: _ =>
              match regexHexDigit first, regexHexDigit second with
              | some high, some low =>
                  advance 2
                  return (high * 16 + low, 0)
              | _, _ => regexCompileFail .escape (compiler.offset - 2)
          | _ => regexCompileFail .escape (compiler.offset - 2)
        else return (ch, 0)

def regexReadMember : Compile (Nat × Nat) := do
  let compiler ← get
  if compiler.next = some 0x5C then
    advance 1
    regexReadEscape
  else
    let value ← regexReadPatternRune
    return (value, 0)

/-- The loop of `RegexParseClass`. `previous` holds `previous` and
`previous_range`; the result is `any`. -/
def classLoop : Nat → Option (Nat × Nat) → Bool → Compile Bool
  | 0, _, _ => throw .running
  | fuel + 1, previous, any => do
      let compiler ← get
      if compiler.next.any (· ≠ 0x5D) then
        let (value, kind) ← regexReadMember
        if kind ≠ 0 then
          regexClassKind kind
          classLoop fuel none true
        else
          let compiler ← get
          match previous with
          | some (first, index) =>
              if value = '-'.toNat ∧ compiler.next.any (· ≠ 0x5D) then
                let (last, kind) ← regexReadMember
                let compiler ← get
                if kind ≠ 0 ∨ last < first then regexCompileFail .charClass (compiler.offset - 1)
                else
                  set { compiler with
                    ranges := compiler.ranges.modify index fun range => { range with last := last } }
                  classLoop fuel none true
              else
                let added ← regexRangeAdd value value
                classLoop fuel (some (value, added)) true
          | none =>
              let added ← regexRangeAdd value value
              classLoop fuel (some (value, added)) true
      else return any

def regexClassBody (index rangeStart : Nat) (negate : Bool) : Compile CRegexFragment := do
  let compiler ← get
  let any ← classLoop (compiler.pattern.length + 1) none false
  let compiler ← get
  if compiler.offset ≥ compiler.pattern.length ∨ any = false then
    regexCompileFail .charClass compiler.offset
  else
    advance 1
    setInstruction index fun instruction => { instruction with
      rangeIndex := rangeStart
      rangeCount := compiler.ranges.length - rangeStart
      negate := negate }
    regexFragmentOne index false

def regexParseClass : Compile CRegexFragment := do
  let index ← regexEmit .charClass
  let compiler ← get
  if compiler.next = some 0x5E then
    advance 1
    regexClassBody index compiler.ranges.length true
  else regexClassBody index compiler.ranges.length false

def isRepeat (ch : UInt8) : Bool := ch = 0x2A ∨ ch = 0x2B ∨ ch = 0x3F

def regexParseAtom (alternative : Compile CRegexFragment) : Compile CRegexFragment := do
  let compiler ← get
  match compiler.next with
  | none => regexEmptyFragment
  | some ch =>
      if isRepeat ch then regexCompileFail .repeat compiler.offset
      else
        advance 1
        if ch = 0x28 then
          let fragment ← alternative
          let compiler ← get
          if compiler.next ≠ some 0x29 then regexCompileFail .paren compiler.offset
          else
            advance 1
            return fragment
        else if ch = 0x5B then regexParseClass
        else if ch = 0x2E then
          let index ← regexEmit .any
          regexFragmentOne index false
        else if ch = 0x5E then
          let index ← regexEmit .bol
          regexFragmentOne index false
        else if ch = 0x24 then
          let index ← regexEmit .eol
          regexFragmentOne index false
        else if ch = 0x5C then
          let (value, kind) ← regexReadEscape
          if kind ≠ 0 then
            let index ← regexEmit .charClass
            let compiler ← get
            let rangeIndex := compiler.ranges.length
            regexClassKind kind
            let compiler ← get
            setInstruction index fun instruction => { instruction with
              rangeIndex := rangeIndex
              rangeCount := compiler.ranges.length - rangeIndex }
            regexFragmentOne index false
          else
            let index ← regexEmit .rune
            setInstruction index fun instruction => { instruction with rune := value }
            regexFragmentOne index false
        else
          modify fun compiler => { compiler with offset := compiler.offset - 1 }
          let value ← regexReadPatternRune
          let index ← regexEmit .rune
          setInstruction index fun instruction => { instruction with rune := value }
          regexFragmentOne index false

def regexRepeatFragment (ch : UInt8) (split : Nat) (fragment : CRegexFragment) :
    Compile CRegexFragment := do
  setInstruction split fun instruction => { instruction with x := some fragment.start }
  if ch = 0x2A then
    regexPatchTo fragment.patches split
    regexFragmentOne split true
  else if ch = 0x2B then
    regexPatchTo fragment.patches split
    let again ← regexFragmentOne split true
    return { again with start := fragment.start }
  else
    let extra ← regexFragmentOne split true
    return ⟨split, fragment.patches ++ extra.patches⟩

def regexParseRepeat (alternative : Compile CRegexFragment) : Compile CRegexFragment := do
  let fragment ← regexParseAtom alternative
  let compiler ← get
  match compiler.next.filter isRepeat with
  | none => return fragment
  | some ch =>
      advance 1
      let split ← regexEmit .split
      let repeated ← regexRepeatFragment ch split fragment
      let compiler ← get
      if compiler.next.any isRepeat then regexCompileFail .repeat compiler.offset
      else return repeated

def regexAtomBegins (compiler : CRegexCompiler) : Bool :=
  compiler.next.any fun ch => ch ≠ 0x29 ∧ ch ≠ 0x7C

def sequenceLoop (alternative : Compile CRegexFragment) :
    Nat → CRegexFragment → Compile CRegexFragment
  | 0, _ => throw .running
  | fuel + 1, result => do
      let compiler ← get
      if regexAtomBegins compiler then
        let next ← regexParseRepeat alternative
        regexPatchTo result.patches next.start
        sequenceLoop alternative fuel { result with patches := next.patches }
      else return result

def regexParseSequence (alternative : Compile CRegexFragment) : Compile CRegexFragment := do
  let compiler ← get
  if regexAtomBegins compiler then
    let result ← regexParseRepeat alternative
    sequenceLoop alternative (compiler.pattern.length + 1) result
  else regexEmptyFragment

def alternativeLoop (alternative : Compile CRegexFragment) :
    Nat → CRegexFragment → Compile CRegexFragment
  | 0, _ => throw .running
  | fuel + 1, result => do
      let compiler ← get
      if compiler.next = some 0x7C then
        advance 1
        let right ← regexParseSequence alternative
        let split ← regexEmit .split
        setInstruction split fun instruction => { instruction with
          x := some result.start
          y := some right.start }
        alternativeLoop alternative fuel ⟨split, result.patches ++ right.patches⟩
      else return result

def regexParseAlternative : Nat → Compile CRegexFragment
  | 0 => throw .running
  | fuel + 1 => do
      let compiler ← get
      let result ← regexParseSequence (regexParseAlternative fuel)
      alternativeLoop (regexParseAlternative fuel) (compiler.pattern.length + 1) result

def instructionSize : Nat := 56
def rangeSize : Nat := 16
def patchSize : Nat := 24

def regexMemorySize (patternLength : Nat) : Option Nat :=
  if patternLength > (i64Max - 2) / 2 then none
  else
    let instructions := patternLength * 2 + 2
    let ranges := patternLength * 2 + 1
    if instructions > (i64Max - 7) / instructionSize ∨
        instructions > i64Max / (2 * patchSize) ∨ ranges > i64Max / rangeSize then none
    else
      let instructionBytes := (instructions * instructionSize + 7) / 8 * 8
      let rangeBytes := ranges * rangeSize
      let scratchBytes := instructions * 2 * patchSize
      if instructionBytes > i64Max - rangeBytes ∨
          instructionBytes + rangeBytes > i64Max - scratchBytes then none
      else some (instructionBytes + rangeBytes + scratchBytes)

def compileAll : Compile Nat := do
  let compiler ← get
  let fragment ← regexParseAlternative (compiler.pattern.length + 1)
  let compiler ← get
  if compiler.offset ≠ compiler.pattern.length then regexCompileFail .paren compiler.offset
  else
    let final ← regexEmit .matched
    regexPatchTo fragment.patches final
    return fragment.start

def failed (error : RegexError) (position : Nat) : CRegex :=
  ⟨⟨[], [], some 0⟩, ⟨[], 1⟩, error, position⟩

/-- What the request for memory comes to: the old block is large enough or a new one is given, the
allocator gives none, or `MAlloc`, which stands in for no allocator, throws. -/
inductive Memory where
  | given
  | refused
  | thrown
  deriving DecidableEq, Repr

/-- How a call ends, with the regex as it is then. -/
inductive Compiled where
  | returned (regex : CRegex)
  | thrown (regex : CRegex)

def Compiled.returned? : Compiled → Option CRegex
  | .returned regex => some regex
  | .thrown _ => none

def regexCompileN (memory : Memory) (pattern : List UInt8) : Option Compiled :=
  match regexMemorySize pattern.length with
  | none => some (.returned (failed .memory 0))
  | some _ =>
      match memory with
      | .thrown => some (.thrown (failed .ok 0))
      | .refused => some (.returned (failed .memory 0))
      | .given =>
          let instructions := pattern.length * 2 + 2
          match compileAll ⟨pattern, 0, [], [], 0, instructions, pattern.length * 2 + 1,
              instructions * 2⟩ with
          | .error .running => none
          | .error (.error error position) => some (.returned (failed error position))
          | .ok (start, compiler) =>
              some (.returned ⟨⟨compiler.instructions, compiler.ranges, some start⟩,
                ⟨List.replicate instructions 0, 1⟩, .ok, 0⟩)

end Aholyc.Regex
