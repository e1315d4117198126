import Mathlib.Data.List.TakeWhile
import Mathlib.Tactic.Common

/-!
# Blocks of memory

Loops over a block that check every read against the block's end. A block is the list of
its bytes; a pointer into it is the suffix that starts there. `.ok` says that nothing
outside of the block was read.
-/

namespace Aholyc.Lib

inductive Fault
  | outside
  deriving DecidableEq

abbrev Checked := Except Fault

variable {α β : Type}

@[simp] theorem Checked.ok_bind (a : α) (next : α → Checked β) : (Except.ok a >>= next) = next a :=
  rfl

def byteAt (block : List α) (i : Nat) : Checked α :=
  match block[i]? with
  | some byte => .ok byte
  | none => .error .outside

/-- `first && second`, where `second` is read only if `first` holds. -/
def andAlso (first second : Checked Bool) : Checked Bool := do
  if ← first then second else .ok false

/-- The steps of `while (i < finish && test(block[i])) i++`. -/
def countWhile (test : α → Bool) (block : List α) (finish i : Nat) : Checked Nat :=
  if i < finish then do
    if test (← byteAt block i) then
      return (← countWhile test block finish (i + 1)) + 1
    else
      .ok 0
  else
    .ok 0
termination_by finish - i

/-- What `while (finish > start && test(block[finish - 1])) finish--` leaves of the `size`
bytes between them. -/
def countBack (test : α → Bool) (block : List α) (start : Nat) : (size : Nat) → Checked Nat
  | 0 => .ok 0
  | size + 1 => do
    if test (← byteAt block (start + size)) then countBack test block start size
    else .ok (size + 1)

/-- `while (*cursor) { if (!test(*cursor)) return FALSE; cursor++; } return TRUE;` with `stop`
for the NUL. -/
def allBefore (stop test : α → Bool) : List α → Checked Bool
  | [] => .error .outside
  | byte :: rest =>
    if stop byte then .ok true
    else if test byte then allBefore stop test rest
    else .ok false

def lengthBefore (stop : α → Bool) : List α → Checked Nat
  | [] => .error .outside
  | byte :: rest => do
    if stop byte then .ok 0 else return (← lengthBefore stop rest) + 1

/-! ## What they yield -/

theorem byteAt_eq {block : List α} {i : Nat} (inside : i < block.length) :
    byteAt block i = .ok block[i] := by
  simp only [byteAt, List.getElem?_eq_getElem inside]

theorem byteAt_append (front : List α) (byte : α) (back : List α) :
    byteAt (front ++ byte :: back) front.length = .ok byte := by
  have inside : front.length < (front ++ byte :: back).length := by
    rw [List.length_append, List.length_cons]
    omega
  rw [byteAt_eq inside, List.getElem_append_right (Nat.le_refl _)]
  simp only [Nat.sub_self, List.getElem_cons_zero]

theorem andAlso_eq (first second : Bool) :
    andAlso (.ok first) (.ok second) = .ok (first && second) := by
  cases first with
  | true => rfl
  | false => rfl

theorem countWhile_eq (test : α → Bool) {block : List α} {finish : Nat}
    (inside : finish ≤ block.length) (i : Nat) :
    countWhile test block finish i =
      .ok (((block.take finish).drop i).takeWhile test).length := by
  induction steps : finish - i generalizing i with
  | zero =>
    have past : (block.take finish).length ≤ i := by
      rw [List.length_take]
      omega
    unfold countWhile
    rw [if_neg (by omega), List.drop_eq_nil_of_le past]
    rfl
  | succ steps ih =>
    have inBlock : i < block.length := by omega
    have inTake : i < (block.take finish).length := by
      rw [List.length_take]
      omega
    have rest := ih (i + 1) (by omega)
    unfold countWhile
    rw [if_pos (by omega), byteAt_eq inBlock, Checked.ok_bind, List.drop_eq_getElem_cons inTake,
      List.getElem_take, List.takeWhile_cons, rest]
    split
    · rfl
    · rfl

section

variable {stop test : α → Bool}

theorem allBefore_eq (bytes : List α) {last : α} (stops : stop last = true) (rest : List α) :
    allBefore stop test (bytes ++ last :: rest) =
      .ok ((bytes.takeWhile (!stop ·)).all test) := by
  induction bytes with
  | nil =>
    rw [List.nil_append, allBefore, if_pos stops]
    rfl
  | cons byte bytes ih =>
    rw [List.cons_append, allBefore, List.takeWhile_cons]
    by_cases isStop : stop byte = true
    · rw [if_pos isStop, isStop]
      rfl
    · rw [if_neg isStop, ih, Bool.eq_false_iff.mpr isStop]
      by_cases passes : test byte = true
      · simp [passes]
      · simp [passes]

theorem lengthBefore_eq (bytes : List α) {last : α} (stops : stop last = true) (rest : List α) :
    lengthBefore stop (bytes ++ last :: rest) = .ok (bytes.takeWhile (!stop ·)).length := by
  induction bytes with
  | nil =>
    rw [List.nil_append, lengthBefore, if_pos stops]
    rfl
  | cons byte bytes ih =>
    rw [List.cons_append, lengthBefore, List.takeWhile_cons]
    by_cases isStop : stop byte = true
    · rw [if_pos isStop, isStop]
      rfl
    · rw [if_neg isStop, ih, Bool.eq_false_iff.mpr isStop]
      rfl

end

end Aholyc.Lib
