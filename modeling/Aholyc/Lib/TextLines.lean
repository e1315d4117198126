import Mathlib.Data.List.TakeWhile
import Mathlib.Tactic.Common

/-!
# Lines of a text

A line ends with LF, with CR or with CR LF; a last line may lack its end. What is
in front of the first line end is the first line, and the others are those of the
text behind that line end.
-/

namespace Aholyc.Lib.TextLines

def lf : UInt8 := 10

def cr : UInt8 := 13

def isEnd (byte : UInt8) : Bool := byte = lf ∨ byte = cr

def widen (byte : UInt8) : List (List UInt8) → List (List UInt8)
  | [] => [[byte]]
  | line :: rest => (byte :: line) :: rest

/-- The lines, byte by byte; `afterCr` says that a CR was the byte before, whose
line end a LF belongs to. -/
def linesFrom (afterCr : Bool) : List UInt8 → List (List UInt8)
  | [] => []
  | byte :: rest =>
    if byte = lf ∧ afterCr then linesFrom false rest
    else if isEnd byte then [] :: linesFrom (byte = cr) rest
    else widen byte (linesFrom false rest)

def lines (text : List UInt8) : List (List UInt8) := linesFrom false text

def endLength : List UInt8 → Nat
  | [] => 0
  | byte :: rest => if byte = cr ∧ rest.head? = some lf then 2 else 1

def firstLine (text : List UInt8) : List UInt8 := text.takeWhile (!isEnd ·)

def behind (text : List UInt8) : List UInt8 :=
  let rest := text.dropWhile (!isEnd ·)
  rest.drop (endLength rest)

theorem drop_firstLine (text : List UInt8) :
    text.drop (firstLine text).length = text.dropWhile (!isEnd ·) := by
  have parts : firstLine text ++ text.dropWhile (!isEnd ·) = text :=
    List.takeWhile_append_dropWhile
  calc text.drop (firstLine text).length
      = (firstLine text ++ text.dropWhile (!isEnd ·)).drop (firstLine text).length := by rw [parts]
    _ = text.dropWhile (!isEnd ·) := List.drop_left

theorem take_firstLine (text : List UInt8) :
    text.take (firstLine text).length = firstLine text :=
  (List.prefix_iff_eq_take.mp (List.takeWhile_prefix _)).symm

theorem linesFrom_cr (rest : List UInt8) :
    linesFrom true rest = lines (if rest.head? = some lf then rest.tail else rest) := by
  unfold lines
  cases rest with
  | nil => rfl
  | cons byte rest =>
    rw [linesFrom, List.head?_cons, List.tail_cons]
    by_cases isLf : byte = lf
    · rw [if_pos ⟨isLf, rfl⟩, if_pos (by rw [isLf])]
    · have notLf : ¬ some byte = some lf := fun same => isLf (Option.some.inj same)
      have notBoth {afterCr : Bool} : ¬ (byte = lf ∧ afterCr = true) := fun both => isLf both.1
      rw [if_neg notBoth, if_neg notLf, linesFrom, if_neg notBoth]

/-- A text that is not empty has a first line and the lines behind it. -/
theorem lines_eq {text : List UInt8} (notNil : text ≠ []) :
    lines text = firstLine text :: lines (behind text) := by
  induction text with
  | nil => exact absurd rfl notNil
  | cons byte rest ih =>
    unfold lines firstLine behind
    rw [linesFrom, if_neg (fun both => Bool.false_ne_true both.2)]
    cases isLast : isEnd byte with
    | true =>
      have stops : (!isEnd byte) = false := by rw [isLast]; rfl
      rw [if_pos rfl, List.takeWhile_cons_of_neg (by rw [stops]; decide),
        List.dropWhile_cons_of_neg (by rw [stops]; decide)]
      congr 1
      dsimp only [endLength]
      by_cases isCr : byte = cr
      · rw [decide_eq_true isCr, linesFrom_cr]
        by_cases isLf : rest.head? = some lf
        · rw [if_pos isLf, if_pos ⟨isCr, isLf⟩, List.drop_succ_cons, List.drop_one]
          rfl
        · rw [if_neg isLf, if_neg (fun both => isLf both.2)]
          rfl
      · rw [decide_eq_false isCr, if_neg (fun both => isCr both.1)]
        rfl
    | false =>
      have goes : (!isEnd byte) = true := by rw [isLast]; rfl
      rw [if_neg Bool.false_ne_true, @List.takeWhile_cons_of_pos _ (!isEnd ·) _ _ goes,
        @List.dropWhile_cons_of_pos _ (!isEnd ·) _ _ goes]
      cases rest with
      | nil => rfl
      | cons next rest =>
        have later := ih (List.cons_ne_nil _ _)
        unfold lines at later
        rw [later]
        rfl

theorem lines_nil : lines [] = [] := rfl

end Aholyc.Lib.TextLines
