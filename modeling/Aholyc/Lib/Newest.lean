import Mathlib.Data.List.Basic

/-!
# The newest of a sequence

A bounded store that forgets its oldest items keeps the longest suffix of what it has
been given that fits. Where what fits still fits without some of its ends, this can be
kept up to date item by item. The second part are the loops that move part of a list
in place, towards its front and towards its end.
-/

namespace Aholyc.Lib

variable {α : Type}

variable {l : List α}

section Newest

variable (fits : List α → Bool)

def newest : List α → List α
  | [] => []
  | a :: l => if fits (a :: l) then a :: l else newest l

theorem newest_suffix (l : List α) : newest fits l <:+ l := by
  induction l with
  | nil => exact List.suffix_rfl
  | cons a l ih =>
    rw [newest]
    split
    · exact List.suffix_rfl
    · exact ih.trans (List.suffix_cons a l)

variable {fits}

theorem newest_fits (empty : fits [] = true) (l : List α) : fits (newest fits l) = true := by
  induction l with
  | nil => exact empty
  | cons a l ih =>
    rw [newest]
    split
    · next holds => exact holds
    · exact ih

theorem newest_longest {suffix : List α} (isSuffix : suffix <:+ l) (holds : fits suffix = true) :
    suffix.length ≤ (newest fits l).length := by
  induction l with
  | nil => exact isSuffix.length_le
  | cons a l ih =>
    rw [newest]
    split
    · exact isSuffix.length_le
    · next no =>
        rw [List.suffix_cons_iff] at isSuffix
        cases isSuffix with
        | inl whole =>
          rw [whole] at holds
          exact absurd holds no
        | inr inRest => exact ih inRest

theorem newest_of_fits (holds : fits l = true) : newest fits l = l := by
  cases l with
  | nil => rfl
  | cons a l => exact if_pos holds

theorem newest_cons {a : α} (no : ¬ fits (a :: l) = true) :
    newest fits (a :: l) = newest fits l := if_neg no

theorem newest_concat {x : α} (shrinks : ∀ l : List α, fits (l ++ [x]) = true → fits l = true)
    (l : List α) : newest fits (l ++ [x]) = newest fits (newest fits l ++ [x]) := by
  induction l with
  | nil => rfl
  | cons a l ih =>
    by_cases holds : fits (a :: l) = true
    · rw [newest_of_fits holds]
    · have no : ¬ fits (a :: (l ++ [x])) = true := fun more => holds (shrinks (a :: l) more)
      rw [newest_cons holds, List.cons_append, newest_cons no, ih]

theorem newest_keeps_last {x : α} (alone : fits [x] = true) (l : List α) :
    ∃ front, newest fits (l ++ [x]) = front ++ [x] := by
  induction l with
  | nil => exact ⟨[], newest_of_fits alone⟩
  | cons a l ih =>
    by_cases holds : fits (a :: l ++ [x]) = true
    · exact ⟨a :: l, newest_of_fits holds⟩
    · obtain ⟨front, isFront⟩ := ih
      exact ⟨front, (newest_cons holds).trans isFront⟩

end Newest

/-! ## Moving in place -/

/-- `for (...) *dst++ = f(*src++);` on places of one list. -/
def moveLoop (f : α → Option α) : Nat → Nat → Nat → List α → Option (List α)
  | _, _, 0, l => some l
  | dst, src, n + 1, l =>
    match l[src]? with
    | none => none
    | some x =>
      match f x with
      | none => none
      | some y => if dst < l.length then moveLoop f (dst + 1) (src + 1) n (l.set dst y) else none

/-- Towards the front, no item is overwritten before it is moved. -/
theorem moveLoop_spec {f : α → Option α} {g : α → α} {n dst src : Nat} (down : dst ≤ src)
    (inside : src + n ≤ l.length) (works : ∀ x ∈ (l.drop src).take n, f x = some (g x)) :
    ∃ l', moveLoop f dst src n l = some l' ∧ l'.length = l.length ∧
      l'.take (dst + n) = l.take dst ++ ((l.drop src).take n).map g := by
  induction n generalizing dst src l with
  | zero =>
    refine ⟨l, rfl, rfl, ?_⟩
    rw [List.take_zero, List.map_nil, List.append_nil]
    rfl
  | succ n ih =>
    have first : l[src]? = some (l[src]) := List.getElem?_eq_getElem (by omega)
    have isDrop : l.drop src = l[src] :: l.drop (src + 1) := List.drop_eq_getElem_cons (by omega)
    rw [isDrop, List.take_succ_cons] at works
    have isValue := works _ List.mem_cons_self
    have dropped : (l.set dst (g l[src])).drop (src + 1) = l.drop (src + 1) :=
      List.drop_set_of_lt (by omega)
    have later : ∀ x ∈ ((l.set dst (g l[src])).drop (src + 1)).take n, f x = some (g x) := by
      rw [dropped]
      exact fun x member => works x (List.mem_cons_of_mem _ member)
    obtain ⟨l', isMoved, length, moved⟩ :=
      ih (by omega : dst + 1 ≤ src + 1) (by rw [List.length_set]; omega) later
    refine ⟨l', ?_, ?_, ?_⟩
    · rw [moveLoop, first]
      dsimp only
      rw [isValue]
      dsimp only
      rw [if_pos (by omega : dst < l.length), isMoved]
    · rw [length, List.length_set]
    · have place : l.set dst (g l[src]) = l.take dst ++ g l[src] :: l.drop (dst + 1) :=
        List.set_eq_take_append_cons_drop.trans (if_pos (by omega))
      have front : (l.set dst (g l[src])).take (dst + 1) = l.take dst ++ [g l[src]] := by
        have isLength : (l.take dst ++ [g l[src]]).length = dst + 1 := by
          rw [List.length_append, List.length_take, List.length_singleton]
          omega
        rw [place, List.append_cons, ← isLength, List.take_left]
      rw [← Nat.succ_add_eq_add_succ, moved, front, dropped, isDrop, List.take_succ_cons,
        List.map_cons, List.append_assoc, List.singleton_append]

/-- `for (i = start + n - 1; i >= start; i--) l[i + count] = l[i];` -/
def liftLoop (count start : Nat) : Nat → List α → Option (List α)
  | 0, l => some l
  | n + 1, l =>
    match l[start + n]? with
    | none => none
    | some x =>
      if start + n + count < l.length then liftLoop count start n (l.set (start + n + count) x)
      else none

/-- Towards the end, from the last one on, no item is overwritten before it is moved. -/
theorem liftLoop_spec {count start n : Nat} (inside : start + n + count ≤ l.length) :
    ∃ l', liftLoop count start n l = some l' ∧ l'.length = l.length ∧
      l'.take start = l.take start ∧ (l'.drop (start + count)).take n = (l.drop start).take n ∧
      l'.drop (start + n + count) = l.drop (start + n + count) := by
  induction n generalizing l with
  | zero => exact ⟨l, rfl, rfl, rfl, rfl, rfl⟩
  | succ n ih =>
    have last : l[start + n]? = some l[start + n] := List.getElem?_eq_getElem (by omega)
    obtain ⟨l', isMoved, length, front, middle, back⟩ :=
      ih (l := l.set (start + n + count) l[start + n]) (by rw [List.length_set]; omega)
    rw [List.length_set] at length
    refine ⟨l', ?_, length, ?_, ?_, ?_⟩
    · rw [liftLoop, last]
      dsimp only
      rw [if_pos (by omega : start + n + count < l.length), isMoved]
    · rw [front, List.take_set_of_le (by omega)]
    · have isLast : l'[start + n + count]? = some l[start + n] := by
        have first := congrArg List.head? back
        rwa [List.head?_drop, List.head?_drop, List.getElem?_set_self (by omega)] at first
      have place : start + count + n = start + n + count := by omega
      have same : ((l.set (start + n + count) l[start + n]).drop start).take n =
          (l.drop start).take n := by
        rw [List.drop_set, if_neg (by omega), List.take_set_of_le (by omega)]
      rw [List.take_add_one, List.take_add_one, middle, same, List.getElem?_drop,
        List.getElem?_drop, place, isLast, last]
    · have later := congrArg (List.drop 1) back
      rw [List.drop_drop, List.drop_drop, List.drop_set_of_lt (by omega)] at later
      have place : start + (n + 1) + count = start + n + count + 1 := by omega
      rw [place]
      exact later

end Aholyc.Lib
