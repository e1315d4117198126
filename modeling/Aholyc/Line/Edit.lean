import Mathlib.Data.List.DropRight
import Aholyc.Line.History
import Aholyc.Text.Boundaries

/-!
# Editing a line (lib/line/line.hc)

The line is in a buffer of fixed size, with the cursor as an offset. `Shows` says what
is in front of the cursor and what is behind it. Each operation is given by what it
does to these two texts; what it does to the other fields is said by `Edited`.
-/

namespace Aholyc.Line

open Aholyc.Lib
open Aholyc.Text (utf8 utf8DecodeRune ascii_piece)

def blank : UInt8 := 0x20

/-- An editor, without its callbacks and what is only for the screen. `buffer`, `stash` and `query`
are the arrays; the stash need not be there. -/
structure CLine where
  buffer : Bytes
  length : Nat
  cursor : Nat
  stash : Option Bytes
  stashLength : Nat
  histIndex : Int
  query : Bytes
  queryLength : Nat
  deriving DecidableEq, Repr

def CLine.capacity (line : CLine) : Nat := line.buffer.length

/-! ## The source -/

/-- `while (pos > 0 && test (buffer[pos - 1])) pos--;` -/
def downWhile (test : UInt8 → Bool) (buffer : Bytes) : Nat → Nat
  | 0 => 0
  | pos + 1 => if buffer[pos]?.any test then downWhile test buffer pos else pos + 1

/-- `while (pos < length && test (buffer[pos])) pos++;` with the number of bytes left. -/
def upWhile (test : UInt8 → Bool) (buffer : Bytes) : Nat → Nat → Nat
  | 0, pos => pos
  | left + 1, pos =>
    if buffer[pos]?.any test then upWhile test buffer left (pos + 1) else pos

def lineWordLeft (line : CLine) (pos : Nat) : Nat :=
  downWhile (· != blank) line.buffer (downWhile (· == blank) line.buffer pos)

def lineInsert (bytes : Bytes) (line : CLine) : Option CLine :=
  if bytes.length = 0 then some line
  else if line.length + bytes.length > line.capacity - 1 then some line
  else do
    let lifted ← liftLoop bytes.length line.cursor (line.length - line.cursor) line.buffer
    let buffer ← copyTo lifted line.cursor bytes
    pure { line with
      buffer := buffer
      cursor := line.cursor + bytes.length
      length := line.length + bytes.length }

/-! ## What is shown -/

structure Shows (line : CLine) (front back : Bytes) : Prop where
  text : line.buffer.take line.length = front ++ back
  length : line.length = front.length + back.length
  cursor : line.cursor = front.length
  room : line.length + 1 ≤ line.capacity

structure Edited (line line' : CLine) : Prop where
  capacity : line'.capacity = line.capacity
  stash : line'.stash = line.stash
  stashLength : line'.stashLength = line.stashLength
  histIndex : line'.histIndex = line.histIndex
  query : line'.query = line.query
  queryLength : line'.queryLength = line.queryLength

theorem Edited.refl (line : CLine) : Edited line line := ⟨rfl, rfl, rfl, rfl, rfl, rfl⟩

theorem Edited.trans {a b c : CLine} (first : Edited a b) (second : Edited b c) : Edited a c :=
  ⟨second.capacity.trans first.capacity, second.stash.trans first.stash,
    second.stashLength.trans first.stashLength, second.histIndex.trans first.histIndex,
    second.query.trans first.query, second.queryLength.trans first.queryLength⟩

variable {line : CLine} {front back bytes : Bytes}

theorem Shows.unique {front' back' : Bytes} (shows_ : Shows line front back)
    (shows' : Shows line front' back') : front = front' ∧ back = back' :=
  List.append_inj (shows_.text.symm.trans shows'.text) (shows_.cursor.symm.trans shows'.cursor)

theorem Shows.byte (shows_ : Shows line front back) {pos : Nat} (inside : pos < line.length) :
    line.buffer[pos]? = (front ++ back)[pos]? := by
  rw [← shows_.text, List.getElem?_take, if_pos inside]

/-! ## Words -/

theorem blank_piece : utf8.isPiece [blank] := ascii_piece (by decide)

theorem downWhile_le (test : UInt8 → Bool) (buffer : Bytes) (pos : Nat) :
    downWhile test buffer pos ≤ pos := by
  induction pos with
  | zero => exact Nat.le_refl 0
  | succ pos ih =>
    rw [downWhile]
    split
    · omega
    · exact Nat.le_refl _

theorem lineWordLeft_le (line : CLine) (pos : Nat) : lineWordLeft line pos ≤ pos :=
  (downWhile_le _ _ _).trans (downWhile_le _ _ _)

/-- The loop stops at the start or behind another byte. -/
theorem downWhile_stops (test : UInt8 → Bool) (buffer : Bytes) (pos : Nat) :
    downWhile test buffer pos = 0 ∨
      buffer[downWhile test buffer pos - 1]?.any test = false := by
  induction pos with
  | zero => exact Or.inl rfl
  | succ pos ih =>
    rw [downWhile]
    split
    · exact ih
    · next other =>
        right
        rw [Nat.add_sub_cancel]
        exact Bool.eq_false_iff.mpr other

theorem downWhile_eq (test : UInt8 → Bool) (buffer : Bytes) (pos : Nat)
    (inside : pos ≤ buffer.length) :
    downWhile test buffer pos = ((buffer.take pos).rdropWhile test).length := by
  induction pos with
  | zero => rfl
  | succ pos ih =>
    have isByte : buffer[pos]? = some buffer[pos] := List.getElem?_eq_getElem (by omega)
    rw [downWhile, List.take_add_one, isByte, Option.toList_some, List.rdropWhile_concat,
      Option.any_some]
    split
    · exact ih (by omega)
    · rw [List.length_append, List.length_take, List.length_singleton]
      omega

theorem upWhile_between (test : UInt8 → Bool) (buffer : Bytes) (left pos : Nat) :
    pos ≤ upWhile test buffer left pos ∧ upWhile test buffer left pos ≤ pos + left := by
  induction left generalizing pos with
  | zero => exact ⟨Nat.le_refl _, Nat.le_refl _⟩
  | succ left ih =>
    rw [upWhile]
    split
    · have rest := ih (pos + 1)
      omega
    · omega

theorem upWhile_boundary {text : Bytes} {left pos : Nat} (isText : utf8.Text text)
    (inside : pos + left ≤ text.length) (same : ∀ i < text.length, line.buffer[i]? = text[i]?)
    (boundary : utf8.Boundary text pos) :
    utf8.Boundary text (upWhile (· == blank) line.buffer left pos) := by
  induction left generalizing pos with
  | zero => exact boundary
  | succ left ih =>
    rw [upWhile, same pos (by omega)]
    split
    · next isBlank =>
        rw [Option.any_eq_true] at isBlank
        obtain ⟨byte, isByte, isBlank⟩ := isBlank
        rw [beq_iff_eq] at isBlank
        rw [isBlank] at isByte
        exact ih (by omega) (isText.alone_boundary isByte blank_piece).2
    · exact boundary

section Places

variable {pos : Nat} (shows_ : Shows line front back) (isText : utf8.Text (front ++ back))

include shows_

theorem Shows.bytes_eq : ∀ i < (front ++ back).length, line.buffer[i]? = (front ++ back)[i]? := by
  intro i inside
  apply shows_.byte
  rw [shows_.length, ← List.length_append]
  exact inside

include isText

theorem Shows.blank_boundary (inside : pos < (front ++ back).length)
    (isBlank : line.buffer[pos]?.any (· != blank) = false) :
    utf8.Boundary (front ++ back) pos ∧ utf8.Boundary (front ++ back) (pos + 1) := by
  have isByte := List.getElem?_eq_getElem inside
  rw [shows_.bytes_eq pos inside, isByte, Option.any_some, bne_eq_false_iff_eq] at isBlank
  rw [isBlank] at isByte
  exact isText.alone_boundary isByte blank_piece

theorem Shows.wordLeft_boundary (inside : pos ≤ (front ++ back).length) :
    utf8.Boundary (front ++ back) (lineWordLeft line pos) := by
  unfold lineWordLeft
  have first := downWhile_le (· == blank) line.buffer pos
  have second := downWhile_le (· != blank) line.buffer (downWhile (· == blank) line.buffer pos)
  generalize isPlace : downWhile (· != blank) line.buffer
    (downWhile (· == blank) line.buffer pos) = place at second ⊢
  have stops := downWhile_stops (· != blank) line.buffer (downWhile (· == blank) line.buffer pos)
  rw [isPlace] at stops
  by_cases atStart : place = 0
  · rw [atStart]
    exact Pieces.boundary_zero isText
  · have isBlank := stops.resolve_left atStart
    have boundary := (shows_.blank_boundary isText (by omega) isBlank).2
    rwa [Nat.sub_add_cancel (by omega)] at boundary

end Places

/-! ## Insertion and deletion -/

theorem Shows.insert (shows_ : Shows line front back) (bytes : Bytes) :
    ∃ line', lineInsert bytes line = some line' ∧ Edited line line' ∧
      (line.length + bytes.length + 1 ≤ line.capacity → Shows line' (front ++ bytes) back) ∧
      (line.length + bytes.length + 1 > line.capacity → line' = line) := by
  have isLength := shows_.length
  have isCursor := shows_.cursor
  have room := shows_.room
  unfold lineInsert
  by_cases none : bytes.length = 0
  · rw [if_pos none]
    refine ⟨line, rfl, Edited.refl line, ?_, fun _ => rfl⟩
    intro _
    rw [List.length_eq_zero_iff] at none
    rwa [none, List.append_nil]
  · rw [if_neg none]
    by_cases full : line.length + bytes.length > line.capacity - 1
    · rw [if_pos full]
      refine ⟨line, rfl, Edited.refl line, ?_, fun _ => rfl⟩
      intro enough
      omega
    · have inside : line.cursor + (line.length - line.cursor) + bytes.length ≤
          line.buffer.length := by
        change _ ≤ line.capacity
        omega
      obtain ⟨lifted, isLifted, lifted_length, start, moved, _⟩ := liftLoop_spec inside
      have isCopied : copyTo lifted line.cursor bytes = some (lifted.take line.cursor ++ bytes ++
          lifted.drop (line.cursor + bytes.length)) := by
        unfold copyTo
        exact if_pos (by omega)
      have isFront : lifted.take line.cursor = front := by
        have text := congrArg (List.take line.cursor) shows_.text
        rw [List.take_take, Nat.min_eq_left (by omega), isCursor, List.take_left] at text
        rw [start, isCursor, text]
      have isBack : (lifted.drop (line.cursor + bytes.length)).take back.length = back := by
        have text := congrArg (List.drop line.cursor) shows_.text
        rw [List.drop_take, isCursor, List.drop_left] at text
        have count : line.length - line.cursor = back.length := by omega
        rw [count] at moved
        rw [moved, isCursor, ← text]
        congr 1
        rw [List.length_take, List.length_drop]
        change min (line.length - front.length) (line.capacity - front.length) = _
        omega
      rw [if_neg full, isLifted]
      dsimp only [Option.bind_eq_bind, Option.bind_some]
      rw [isCopied, isFront]
      have isCapacity : (front ++ bytes ++ lifted.drop (line.cursor + bytes.length)).length =
          line.capacity := by
        rw [List.length_append, List.length_append, List.length_drop, lifted_length]
        change _ + (line.capacity - _) = _
        omega
      refine ⟨_, rfl, ⟨isCapacity, rfl, rfl, rfl, rfl, rfl⟩, ?_, ?_⟩
      · intro enough
        refine ⟨?_, ?_, ?_, ?_⟩
        · dsimp only
          have count : line.length + bytes.length = (front ++ bytes).length + back.length := by
            rw [List.length_append]
            omega
          rw [count, List.take_append, List.take_of_length_le (by omega), Nat.add_sub_cancel_left,
            isBack]
        · dsimp only
          rw [List.length_append]
          omega
        · dsimp only
          rw [List.length_append]
          omega
        · change line.length + bytes.length + 1 ≤ List.length _
          rw [isCapacity]
          exact enough
      · intro over_
        omega

end Aholyc.Line
