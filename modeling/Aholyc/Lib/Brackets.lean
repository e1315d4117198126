import Mathlib.Data.List.Basic

/-!
# Nested brackets

Two letters of an alphabet are an opening and a closing bracket. A word is balanced
if every bracket has its partner; what is in front of any place of a balanced word is
balanced but for brackets that are still open.
-/

namespace Aholyc.Lib

variable {α : Type} (opens closes : α)

inductive Balanced : List α → Prop
  | nil : Balanced []
  | plain {a : α} {rest : List α} (notOpen : a ≠ opens) (notClose : a ≠ closes)
      (balanced : Balanced rest) : Balanced (a :: rest)
  | nested {inner rest : List α} (isInner : Balanced inner) (isRest : Balanced rest) :
      Balanced (opens :: (inner ++ closes :: rest))

inductive Unclosed : List α → Prop
  | balanced {word : List α} (isWord : Balanced opens closes word) : Unclosed word
  | opened {front rest : List α} (isFront : Balanced opens closes front)
      (isRest : Unclosed rest) : Unclosed (front ++ opens :: rest)

variable {opens closes} {word other : List α}

theorem Balanced.append (isWord : Balanced opens closes word)
    (isOther : Balanced opens closes other) : Balanced opens closes (word ++ other) := by
  induction isWord with
  | nil => exact isOther
  | plain notOpen notClose _ ih => exact .plain notOpen notClose ih
  | nested isInner _ _ ih =>
    rw [List.cons_append, List.append_assoc, List.cons_append]
    exact .nested isInner ih

theorem Unclosed.behind {front rest : List α} (isFront : Balanced opens closes front)
    (isRest : Unclosed opens closes rest) : Unclosed opens closes (front ++ rest) := by
  cases isRest with
  | balanced isWord => exact .balanced (isFront.append isWord)
  | opened isMiddle isRest =>
    rw [← List.append_assoc]
    exact .opened (isFront.append isMiddle) isRest

theorem Balanced.unclosed (isWord : Balanced opens closes word) {front back : List α}
    (isSplit : word = front ++ back) : Unclosed opens closes front := by
  induction isWord generalizing front back with
  | nil =>
    rw [List.nil_eq_append_iff] at isSplit
    rw [isSplit.1]
    exact .balanced .nil
  | @plain a rest notOpen notClose _ ih =>
    cases front with
    | nil => exact .balanced .nil
    | cons first front =>
      rw [List.cons_append, List.cons.injEq] at isSplit
      rw [← isSplit.1]
      have isFirst : Balanced opens closes [a] := .plain notOpen notClose .nil
      exact .behind isFirst (ih isSplit.2)
  | @nested inner rest isInner isRest inner_ih rest_ih =>
    cases front with
    | nil => exact .balanced .nil
    | cons first front =>
      rw [List.cons_append, List.cons.injEq] at isSplit
      obtain ⟨rfl, isSplit⟩ := isSplit
      rw [List.append_eq_append_iff] at isSplit
      rcases isSplit with ⟨middle, isFront, isMiddle⟩ | ⟨middle, isInner', isBack⟩
      · cases middle with
        | nil =>
          rw [List.append_nil] at isFront
          rw [isFront]
          exact .opened .nil (.balanced isInner)
        | cons close middle =>
          rw [List.cons_append, List.cons.injEq] at isMiddle
          have isNested : Balanced opens closes (opens :: (inner ++ [closes])) :=
            .nested isInner .nil
          have isWord : opens :: front = opens :: (inner ++ [closes]) ++ middle := by
            rw [isFront, ← isMiddle.1, List.cons_append, List.append_assoc,
              List.singleton_append]
          rw [isWord]
          exact .behind isNested (rest_ih isMiddle.2)
      · exact .opened .nil (inner_ih isInner')

end Aholyc.Lib
