import Aholyc.Lib.Closure
import Aholyc.Text.Utf8

/-!
# Running a compiled expression (lib/regex/regex.hc)

A compiled expression is a list of instructions. `regexAddState` follows the
instructions that read nothing; the two loops step all threads over one code
point at a time. A thread is an instruction that waits for a code point, with
the position its match began at.
-/

namespace Aholyc.Regex

open Aholyc.Lib.Closure Aholyc.Text

inductive RegexOp where
  | rune | any | charClass | split | jump | bol | eol | matched
  deriving DecidableEq, Repr

/-- `x` and `y` are instruction numbers; `none` is the source's -1. -/
structure CRegexInstruction where
  op : RegexOp
  x : Option Nat
  y : Option Nat
  rune : Nat
  rangeIndex : Nat
  rangeCount : Nat
  negate : Bool
  deriving DecidableEq, Repr

structure CRegexRange where
  first : Nat
  last : Nat
  deriving DecidableEq, Repr

inductive RegexError where
  | ok | argument | memory | syntaxError | paren | charClass | escape | repeat | utf8
  deriving DecidableEq, Repr

structure CProgram where
  instructions : List CRegexInstruction
  ranges : List CRegexRange
  start : Option Nat

structure CMarks where
  seen : List Nat
  generation : Nat

structure CRegex where
  program : CProgram
  marks : CMarks
  error : RegexError
  errorOffset : Nat

namespace CProgram

abbrev count (program : CProgram) : Nat := program.instructions.length

abbrev State (program : CProgram) : Type := Fin program.count

def fetch (program : CProgram) (state : program.State) : CRegexInstruction :=
  program.instructions.get state

def state (program : CProgram) (field : Option Nat) : Option program.State :=
  field.bind fun index => if inside : index < program.count then some ⟨index, inside⟩ else none

end CProgram

/-- An instruction that waits for a code point, and where its match began. -/
abbrev Thread (program : CProgram) : Type := program.State × Nat

def i64Max : Nat := 9223372036854775807

def regexNextGeneration (program : CProgram) (marks : CMarks) : CMarks :=
  if marks.generation = i64Max then
    ⟨List.replicate program.count 0 ++ marks.seen.drop program.count, 1⟩
  else { marks with generation := marks.generation + 1 }

def regexInstructionMatches (program : CProgram) (instruction : CRegexInstruction) (rune : Nat) :
    Bool :=
  match instruction.op with
  | .rune => instruction.rune = rune
  | .any => true
  | .charClass =>
      let ranges := (program.ranges.drop instruction.rangeIndex).take instruction.rangeCount
      let found := ranges.any fun range => range.first ≤ rune && rune ≤ range.last
      if instruction.negate then !found else found
  | _ => false

def regexUtf8Boundary (text : List UInt8) (position : Nat) : Bool :=
  position = 0 || position ≥ text.length ||
    text.getD position 0 < 0x80 || text.getD position 0 > 0xBF

/-- The recursive calls of `RegexAddState`; `none` is its last branch, which
adds the state to the list. -/
def follows (program : CProgram) (position length : Nat) : Graph program.State := fun state =>
  let x := (program.state (program.fetch state).x).toList
  let y := (program.state (program.fetch state).y).toList
  match (program.fetch state).op with
  | .split => some (x ++ y)
  | .jump => some x
  | .bol => some (if position = 0 then x else [])
  | .eol => some (if position = length then x else [])
  | _ => none

/-- `seen[state] == generation` marks a state. -/
def seenMarks (program : CProgram) (generation : Nat) : Marks (List Nat) program.State where
  valid seen := program.count ≤ seen.length ∧
    ∀ value ∈ seen.take program.count, value ≤ generation
  has seen state := seen.getD state 0 = generation
  mark state seen := seen.set state generation
  valid_mark := by
    intro seen state valid
    refine ⟨by rw [List.length_set]; exact valid.1, ?_⟩
    intro value inSet
    rw [List.take_set] at inSet
    cases List.mem_or_eq_of_mem_set inSet with
    | inl old => exact valid.2 value old
    | inr new => rw [new]
  has_mark := by
    intro seen state other valid
    have inside : state < seen.length := Nat.lt_of_lt_of_le state.isLt valid.1
    rw [decide_eq_true_eq, decide_eq_true_eq, List.getD_eq_getElem?_getD,
      List.getD_eq_getElem?_getD, List.getElem?_set]
    by_cases same : (state : Nat) = other
    · rw [if_pos same, if_pos inside]
      simp [Fin.ext_iff, same]
    · rw [if_neg same]
      simp [Fin.ext_iff, Ne.symm same]

/-- The calls of `RegexAddState` with `roots` and their origins, one after the
other, at `position`. -/
def regexAddStates (program : CProgram) (generation position length : Nat)
    (roots : List (Thread program)) (found : Found (List Nat) program.State Nat) :
    Option (Found (List Nat) program.State Nat) :=
  visitRoots (follows program position length) (seenMarks program generation)
    (program.count + 1) roots found

/-- The states that follow the threads for which `keep` holds and that match
the rune, in the order of the threads. -/
def matching (program : CProgram) (rune : Nat) (keep : Nat → Bool)
    (threads : List (Thread program)) : List (Thread program) :=
  threads.filterMap fun thread =>
    if keep thread.2 && regexInstructionMatches program (program.fetch thread.1) rune then
      (program.state (program.fetch thread.1).x).map (·, thread.2)
    else none

def isMatch (program : CProgram) (thread : Thread program) : Bool :=
  (program.fetch thread.1).op = .matched

/-- The loop of `RegexRunAt`; `accepted` is `none` for -1. -/
def runLoop (program : CProgram) (text : List UInt8) (start : Nat) :
    Nat → CMarks → Nat → Option Nat → List (Thread program) → Option (CMarks × Option Nat)
  | 0, _, _, _, _ => none
  | fuel + 1, marks, position, accepted, current =>
      let accepted := if current.any (isMatch program) then some position else accepted
      if position ≥ text.length || current.isEmpty then some (marks, accepted)
      else
        match utf8DecodeRune (text.drop position) with
        | none => some (marks, accepted)
        | some (consumed, rune) => do
            let next := regexNextGeneration program marks
            let roots := (matching program rune (fun _ => true) current).map fun thread =>
              (thread.1, start)
            let found ← regexAddStates program next.generation (position + consumed) text.length
              roots (next.seen, [])
            runLoop program text start fuel ⟨found.1, next.generation⟩ (position + consumed)
              accepted found.2

def regexRunAt (program : CProgram) (marks : CMarks) (text : List UInt8) (start : Nat) :
    Option (CMarks × Option Nat) := do
  let next := regexNextGeneration program marks
  let found ← regexAddStates program next.generation start text.length
    ((program.state program.start).toList.map (·, start)) (next.seen, [])
  runLoop program text start (text.length + 1) ⟨found.1, next.generation⟩ start none found.2

def improve (program : CProgram) (position : Nat) (best : Option (Nat × Nat))
    (thread : Thread program) : Option (Nat × Nat) :=
  if isMatch program thread then
    match best with
    | none => some (thread.2, position)
    | some (bestStart, bestEnd) =>
        if thread.2 < bestStart || thread.2 = bestStart && position > bestEnd then
          some (thread.2, position)
        else best
  else best

/-- The body of the loop of `RegexSearchAtN` behind the update of `best`, which
holds `best_start` and `best_end`; `again` is the next round. -/
def searchStep (program : CProgram) (text : List UInt8)
    (again : CMarks → Nat → Option (Nat × Nat) → List (Thread program) →
      Option (CMarks × Option (Nat × Nat)))
    (marks : CMarks) (position : Nat) (best : Option (Nat × Nat))
    (current : List (Thread program)) : Option (CMarks × Option (Nat × Nat)) :=
  if position ≥ text.length || best.isSome && current.isEmpty then some (marks, best)
  else do
    let decoded := utf8DecodeRune (text.drop position)
    let consumed := (decoded.map Prod.fst).getD 1
    let next := regexNextGeneration program marks
    let keep := fun origin => best.all fun best => origin = best.1
    let roots := (decoded.map fun rune => matching program rune.2 keep current).getD []
    let stepped ← regexAddStates program next.generation (position + consumed) text.length
      roots (next.seen, [])
    let found ←
      if best.isNone && regexUtf8Boundary text (position + consumed) then
        regexAddStates program next.generation (position + consumed) text.length
          ((program.state program.start).toList.map (·, position + consumed)) stepped
      else some stepped
    if best.isSome && found.2.isEmpty then some (⟨found.1, next.generation⟩, best)
    else again ⟨found.1, next.generation⟩ (position + consumed) best found.2

def searchLoop (program : CProgram) (text : List UInt8) :
    Nat → CMarks → Nat → Option (Nat × Nat) → List (Thread program) →
      Option (CMarks × Option (Nat × Nat))
  | 0, _, _, _, _ => none
  | fuel + 1, marks, position, best, current =>
      searchStep program text (searchLoop program text fuel) marks position
        (current.foldl (improve program position) best) current

def nextBoundary (text : List UInt8) : Nat → Nat → Nat
  | 0, position => position
  | fuel + 1, position =>
      if position < text.length && !regexUtf8Boundary text position then
        nextBoundary text fuel (position + 1)
      else position

def regexSearchAtN (regex : CRegex) (text : List UInt8) (position : Nat) :
    Option (CRegex × Option (Nat × Nat)) :=
  if regex.error ≠ .ok ∨ position > text.length then some (regex, none)
  else do
    let from_ := nextBoundary text text.length position
    let next := regexNextGeneration regex.program regex.marks
    let found ← regexAddStates regex.program next.generation from_ text.length
      ((regex.program.state regex.program.start).toList.map (·, from_)) (next.seen, [])
    let (marks, best) ← searchLoop regex.program text (text.length + 1)
      ⟨found.1, next.generation⟩ from_ none found.2
    some ({ regex with marks := marks }, best)

def regexFullMatchN (regex : CRegex) (text : List UInt8) : Option (CRegex × Bool) :=
  if regex.error ≠ .ok then some (regex, false)
  else do
    let (marks, accepted) ← regexRunAt regex.program regex.marks text 0
    some ({ regex with marks := marks }, accepted = some text.length)

end Aholyc.Regex
