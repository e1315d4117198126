import Mathlib.Data.Nat.Init
import Mathlib.Data.List.Basic
import Mathlib.Tactic.Common

/-!
# Runs between separators

Some places from `low` up to `high` are separators. A run is a stretch of other
places that cannot be made longer; a scan from the left finds all runs.
-/

namespace Aholyc.Lib

variable (separates : Nat → Prop) (low high : Nat)

/-- The places from `start` up to `stop` are a maximal stretch without
separators, and there are some. -/
structure IsRun (start stop : Nat) : Prop where
  some : start < stop
  above : low ≤ start
  below : stop ≤ high
  free : ∀ place, start ≤ place → place < stop → ¬separates place
  left : start = low ∨ separates (start - 1)
  right : stop = high ∨ separates stop

inductive RunsFrom : Nat → List (Nat × Nat) → Prop
  | done {place : Nat} (separators : ∀ other, place ≤ other → other < high → separates other) :
      RunsFrom place []
  | next {place start stop : Nat} {runs : List (Nat × Nat)} (above : place ≤ start)
      (separators : ∀ other, place ≤ other → other < start → separates other)
      (some : start < stop) (below : stop ≤ high)
      (free : ∀ other, start ≤ other → other < stop → ¬separates other)
      (right : stop = high ∨ separates stop) (others : RunsFrom stop runs) :
      RunsFrom place ((start, stop) :: runs)

variable {separates low high} {place : Nat} {runs : List (Nat × Nat)}

theorem RunsFrom.above (found : RunsFrom separates high place runs) :
    ∀ run ∈ runs, place ≤ run.1 ∧ run.1 < run.2 := by
  induction found with
  | done => simp
  | next above _ some _ _ _ _ ih =>
    intro run isIn
    cases isIn with
    | head => exact ⟨above, some⟩
    | tail _ isIn =>
      have bound := ih run isIn
      exact ⟨by omega, bound.2⟩

theorem RunsFrom.ordered (found : RunsFrom separates high place runs) :
    runs.Pairwise fun one two => one.2 ≤ two.1 := by
  induction found with
  | done => exact List.Pairwise.nil
  | next _ _ _ _ _ _ others ih =>
    apply List.Pairwise.cons _ ih
    intro run isIn
    exact (others.above run isIn).1

/-- From a border on, the runs are found and nothing else. -/
theorem RunsFrom.mem_iff (found : RunsFrom separates high place runs) (inside : low ≤ place)
    (border : place = low ∨ place = high ∨ separates place) (start stop : Nat) :
    (start, stop) ∈ runs ↔ IsRun separates low high start stop ∧ place ≤ start := by
  induction found with
  | @done place separators =>
    apply iff_of_false List.not_mem_nil
    rintro ⟨isRun, above⟩
    have some := isRun.some
    have below := isRun.below
    exact isRun.free start (Nat.le_refl _) some (separators start above (by omega))
  | @next place first last runs above separators some below free right others ih =>
    have isFirst : IsRun separates low high first last := by
      refine ⟨some, by omega, below, free, ?_, right⟩
      by_cases same : first = place
      · subst same
        have notSeparator := free first (Nat.le_refl _) some
        have notEnd : first ≠ high := by omega
        cases border with
        | inl atLow => exact Or.inl atLow
        | inr other => exact absurd (other.resolve_left notEnd) notSeparator
      · exact Or.inr (separators (first - 1) (by omega) (by omega))
    have rest := ih (by omega) (Or.inr right)
    rw [List.mem_cons, rest, Prod.mk.injEq]
    constructor
    · rintro (⟨rfl, rfl⟩ | ⟨isRun, later⟩)
      · exact ⟨isFirst, above⟩
      · exact ⟨isRun, by omega⟩
    rintro ⟨isRun, after⟩
    by_cases later : last ≤ start
    · exact Or.inr ⟨isRun, later⟩
    left
    -- Both runs are maximal and share the place `start`.
    have isSome := isRun.some
    have notBefore : first ≤ start := by
      by_contra before
      exact isRun.free start (Nat.le_refl _) isSome (separators start after (by omega))
    have sameStart : start = first := by
      cases isRun.left with
      | inl atLow => omega
      | inr separator =>
        by_contra other
        exact free (start - 1) (by omega) (by omega) separator
    have sameStop : stop = last := by
      have isBelow := isRun.below
      by_contra other
      by_cases shorter : stop < last
      · have separator := isRun.right.resolve_left (by omega)
        exact free stop (by omega) shorter separator
      · have separator := right.resolve_left (by omega)
        exact isRun.free last (by omega) (by omega) separator
    exact ⟨sameStart, sameStop⟩

end Aholyc.Lib
