import Mathlib.Data.List.Basic
import Mathlib.Logic.Function.Basic

/-!
# Numbered segments

Segments with numbers from 0 to `n`, read from the highest number down. A segment may move up to
an empty neighbour, and new data comes to segment 0.
-/

namespace Aholyc.Lib

variable {α β : Type} {segments : ℕ → List α} {n i : ℕ}

def stacked (segments : ℕ → List α) : ℕ → List α
  | 0 => segments 0
  | n + 1 => segments (n + 1) ++ stacked segments n

theorem stacked_congr {other : ℕ → List α} (same : ∀ i ≤ n, segments i = other i) :
    stacked segments n = stacked other n := by
  induction n with
  | zero => exact same 0 (Nat.le_refl 0)
  | succ n ih =>
    have below : stacked segments n = stacked other n := by
      apply ih
      intro i inside
      exact same i (Nat.le_succ_of_le inside)
    unfold stacked
    rw [below, same (n + 1) (Nat.le_refl _)]

theorem stacked_nil : stacked (fun _ => ([] : List α)) n = [] := by
  induction n with
  | zero => rfl
  | succ n ih => exact ih

theorem stacked_push (more : List α) :
    stacked (Function.update segments 0 (segments 0 ++ more)) n = stacked segments n ++ more := by
  induction n with
  | zero => exact Function.update_self _ _ _
  | succ n ih =>
    unfold stacked
    rw [ih, Function.update_of_ne (Nat.succ_ne_zero n), List.append_assoc]

theorem stacked_drop :
    stacked segments n = segments n ++ stacked (Function.update segments n []) n := by
  cases n with
  | zero =>
    unfold stacked
    rw [Function.update_self, List.append_nil]
  | succ n =>
    have below : stacked (Function.update segments (n + 1) []) n = stacked segments n := by
      apply stacked_congr
      intro i inside
      exact Function.update_of_ne (Nat.ne_of_lt (Nat.lt_succ_of_le inside)) _ _
    unfold stacked
    rw [below, Function.update_self, List.nil_append]

theorem stacked_move (free : segments (i + 1) = []) (inside : i < n) :
    stacked (Function.update (Function.update segments (i + 1) (segments i)) i []) n =
      stacked segments n := by
  have own : Function.update (Function.update segments (i + 1) (segments i)) i [] i = [] :=
    Function.update_self _ _ _
  have next : Function.update (Function.update segments (i + 1) (segments i)) i [] (i + 1) =
      segments i := by
    rw [Function.update_of_ne (Nat.succ_ne_self i), Function.update_self]
  have other : ∀ j, j ≠ i → j ≠ i + 1 →
      Function.update (Function.update segments (i + 1) (segments i)) i [] j = segments j := by
    intro j notOwn notNext
    rw [Function.update_of_ne notOwn, Function.update_of_ne notNext]
  induction n with
  | zero => exact absurd inside (Nat.not_lt_zero i)
  | succ n ih =>
    by_cases last : i = n
    · have above :
          stacked (Function.update (Function.update segments (i + 1) (segments i)) i []) n =
            stacked (Function.update segments i []) n := by
        apply stacked_congr
        intro j below
        by_cases same : j = i
        · rw [same, own, Function.update_self]
        · rw [other j same (by omega), Function.update_of_ne same]
      unfold stacked
      rw [above, ← last, next, free, List.nil_append]
      exact stacked_drop.symm
    · unfold stacked
      rw [ih (by omega), other (n + 1) (by omega) (by omega)]

theorem stacked_flatten {segments : ℕ → List (List α)} :
    (stacked segments n).flatten = stacked (fun i => (segments i).flatten) n := by
  induction n with
  | zero => rfl
  | succ n ih =>
    unfold stacked
    rw [List.flatten_append, ih]

end Aholyc.Lib
