import Mathlib.Data.List.Basic
import Mathlib.Tactic.Common

/-!
# Writing into a buffer

Bytes are written one behind the other into a buffer. A write that does not fit
has no result, so that a run with a result has written nothing outside.
-/

namespace Aholyc.Lib

variable {α : Type}

structure Writer (α : Type) where
  output : List α
  at_ : Nat

/-- The bytes at the next place; `none` is a write outside of the buffer. -/
def Writer.put (writer : Writer α) (bytes : List α) : Option (Writer α) :=
  if writer.at_ + bytes.length ≤ writer.output.length then
    some ⟨writer.output.take writer.at_ ++ bytes ++
      writer.output.drop (writer.at_ + bytes.length), writer.at_ + bytes.length⟩
  else none

def written (old front : List α) : Writer α := ⟨front ++ old.drop front.length, front.length⟩

theorem written_nil (old : List α) : written old [] = ⟨old, 0⟩ := rfl

theorem put_written {old front bytes : List α}
    (room : front.length + bytes.length ≤ old.length) :
    (written old front).put bytes = some (written old (front ++ bytes)) := by
  have fits : front.length + bytes.length ≤ (front ++ old.drop front.length).length := by
    rw [List.length_append, List.length_drop]
    omega
  have behind : (front ++ old.drop front.length).drop (front.length + bytes.length) =
      old.drop (front.length + bytes.length) := by
    rw [← List.drop_drop, List.drop_left, List.drop_drop]
  unfold Writer.put
  rw [if_pos (show (written old front).at_ + bytes.length ≤ (written old front).output.length
    from fits)]
  simp only [written]
  rw [List.take_left, behind, List.length_append]

end Aholyc.Lib
