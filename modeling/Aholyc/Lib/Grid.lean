import Mathlib.Algebra.Order.Ring.Nat
import Mathlib.Data.List.Basic
import Mathlib.Tactic.Common

/-!
# Rows of a flat block

A grid lies row by row in a flat list. Copying and filling whole rows of the
block is copying and filling in the list of its rows, and a copy followed by a
fill shifts the rows of a region.
-/

namespace Aholyc.Lib.Grid

variable {α : Type}

/-- `count` elements from `source` on are copied to `target`. -/
def blit (cells : List α) (target source count : Nat) : List α :=
  cells.take target ++ (cells.drop source).take count ++ cells.drop (target + count)

def fill (cells : List α) (first count : Nat) (x : α) : List α :=
  cells.take first ++ List.replicate count x ++ cells.drop (first + count)

/-- The first `count` rows go, and blank ones come behind the last. -/
def shiftUp (blank : α) (count : Nat) (region : List α) : List α :=
  region.drop count ++ List.replicate (min count region.length) blank

/-- The last `count` rows go, and blank ones come before the first. -/
def shiftDown (blank : α) (count : Nat) (region : List α) : List α :=
  List.replicate (min count region.length) blank ++ region.take (region.length - count)

def onRegion (first height : Nat) (change : List α → List α) (rows : List α) : List α :=
  rows.take first ++ change ((rows.drop first).take height) ++ rows.drop (first + height)

def rowsOf (width : Nat) : Nat → List α → List (List α)
  | 0, _ => []
  | height + 1, cells => cells.take width :: rowsOf width height (cells.drop width)

def Uniform (width : Nat) (rows : List (List α)) : Prop := ∀ row ∈ rows, row.length = width

theorem Uniform.tail {width : Nat} {row : List α} {rows : List (List α)}
    (uniform : Uniform width (row :: rows)) : Uniform width rows :=
  fun row' member => uniform row' (List.mem_cons_of_mem _ member)

theorem rowsOf_flatten {width : Nat} {rows : List (List α)} (uniform : Uniform width rows) :
    rowsOf width rows.length rows.flatten = rows := by
  induction rows with
  | nil => rfl
  | cons row rows ih =>
    have isRow := uniform row List.mem_cons_self
    rw [List.length_cons, rowsOf, List.flatten_cons, List.take_left' isRow,
      List.drop_left' isRow, ih uniform.tail]

variable {cells : List α}

theorem rowsOf_spec {width height : Nat} (size : cells.length = height * width) :
    (rowsOf width height cells).flatten = cells ∧ (rowsOf width height cells).length = height ∧
      Uniform width (rowsOf width height cells) := by
  induction height generalizing cells with
  | zero =>
    rw [Nat.zero_mul] at size
    rw [List.length_eq_zero_iff.mp size]
    exact ⟨rfl, rfl, fun row member => absurd member List.not_mem_nil⟩
  | succ height ih =>
    rw [Nat.succ_mul] at size
    obtain ⟨flat, length, uniform⟩ := @ih (cells.drop width) (by rw [List.length_drop]; omega)
    rw [rowsOf, List.flatten_cons, flat, List.take_append_drop, List.length_cons, length]
    refine ⟨rfl, rfl, ?_⟩
    intro row member
    cases List.mem_cons.mp member with
    | inl isFirst =>
      rw [isFirst, List.length_take]
      omega
    | inr later => exact uniform row later

/-! ## Whole rows -/

section

variable {width : Nat} {rows : List (List α)} (uniform : Uniform width rows)

include uniform

theorem take_flatten (k : Nat) : rows.flatten.take (k * width) = (rows.take k).flatten := by
  induction rows generalizing k with
  | nil => rw [List.take_nil, List.flatten_nil, List.take_nil]
  | cons row rows ih =>
    cases k with
    | zero => rw [Nat.zero_mul, List.take_zero, List.take_zero, List.flatten_nil]
    | succ k =>
      have isRow := uniform row List.mem_cons_self
      rw [Nat.succ_mul, Nat.add_comm, ← isRow, List.flatten_cons, List.take_length_add_append,
        isRow, ih uniform.tail, List.take_succ_cons, List.flatten_cons]

theorem drop_flatten (k : Nat) : rows.flatten.drop (k * width) = (rows.drop k).flatten := by
  induction rows generalizing k with
  | nil => rw [List.drop_nil, List.flatten_nil, List.drop_nil]
  | cons row rows ih =>
    cases k with
    | zero => rw [Nat.zero_mul, List.drop_zero, List.drop_zero]
    | succ k =>
      have isRow := uniform row List.mem_cons_self
      rw [Nat.succ_mul, Nat.add_comm, ← isRow, List.flatten_cons, List.drop_length_add_append,
        isRow, ih uniform.tail, List.drop_succ_cons]

theorem Uniform.drop (k : Nat) : Uniform width (rows.drop k) :=
  fun row member => uniform row (List.mem_of_mem_drop member)

theorem Uniform.take (k : Nat) : Uniform width (rows.take k) :=
  fun row member => uniform row (List.mem_of_mem_take member)

theorem blit_flatten (target source count : Nat) :
    blit rows.flatten (target * width) (source * width) (count * width) =
      (blit rows target source count).flatten := by
  unfold blit
  rw [take_flatten uniform, drop_flatten uniform, take_flatten (uniform.drop source),
    ← Nat.add_mul, drop_flatten uniform, List.flatten_append, List.flatten_append]

theorem fill_flatten (first count : Nat) (x : α) :
    fill rows.flatten (first * width) (count * width) x =
      (fill rows first count (List.replicate width x)).flatten := by
  unfold fill
  rw [take_flatten uniform, ← Nat.add_mul, drop_flatten uniform, List.flatten_append,
    List.flatten_append, List.flatten_replicate_replicate]

theorem Uniform.blit (target source count : Nat) :
    Uniform width (blit rows target source count) := by
  intro row member
  rw [Grid.blit, List.mem_append, List.mem_append] at member
  rcases member with (member | member) | member
  · exact uniform.take target row member
  · exact (uniform.drop source).take count row member
  · exact uniform.drop (target + count) row member

end

theorem length_blit {target source count : Nat} (high : target + count ≤ cells.length)
    (high' : source + count ≤ cells.length) :
    (blit cells target source count).length = cells.length := by
  simp only [blit, List.length_append, List.length_take, List.length_drop]
  omega

/-- A fill writes its first element and goes on behind it. -/
theorem fill_set {first : Nat} (less : first < cells.length) (count : Nat) (x : α) :
    fill (cells.set first x) (first + 1) count x = fill cells first (count + 1) x := by
  have isTake : (cells.set first x).take (first + 1) = cells.take first ++ [x] := by
    rw [List.take_succ_eq_append_getElem (by rw [List.length_set]; exact less),
      List.getElem_set_self, List.take_set, List.set_eq_of_length_le (List.length_take_le _ _)]
  unfold fill
  rw [isTake, List.drop_set_of_lt (by omega), List.replicate_succ, List.append_assoc _ [x],
    List.singleton_append, Nat.add_assoc, Nat.add_comm 1]

/-! ## Shifting a region -/

theorem length_region {rows : List α} {first height : Nat} (high : first + height ≤ rows.length) :
    ((rows.drop first).take height).length = height := by
  rw [List.length_take, List.length_drop]
  omega

section

variable {rows : List α} {first height count : Nat} (high : first + height ≤ rows.length)
  (le : count ≤ height) (blank : α)

include high le

/-- The rows behind the first `count` are copied to the front of the region, and the
end of the region is filled. -/
theorem shiftUp_region :
    fill (blit rows first (first + count) (height - count)) (first + height - count) count blank =
      onRegion first height (shiftUp blank count) rows := by
  have front : (rows.take first).length = first := List.length_take_of_le (by omega)
  have middle : ((rows.drop (first + count)).take (height - count)).length = height - count := by
    rw [List.length_take, List.length_drop]
    omega
  have both : (rows.take first ++ (rows.drop (first + count)).take (height - count)).length =
      first + height - count := by
    rw [List.length_append, front, middle]
    omega
  have isTake : (blit rows first (first + count) (height - count)).take (first + height - count) =
      rows.take first ++ (rows.drop (first + count)).take (height - count) :=
    List.take_left' both
  have isDrop : (blit rows first (first + count) (height - count)).drop
      (first + height - count + count) = rows.drop (first + height) := by
    unfold blit
    rw [← List.drop_drop, List.drop_left' both, List.drop_drop]
    congr 1
    omega
  unfold fill onRegion shiftUp
  rw [isTake, isDrop, length_region high, Nat.min_eq_left le, List.drop_take, List.drop_drop]
  simp only [List.append_assoc]

/-- The rows before the last `count` are copied to the end of the region, and its front
is filled. -/
theorem shiftDown_region :
    fill (blit rows (first + count) first (height - count)) first count blank =
      onRegion first height (shiftDown blank count) rows := by
  have front : (rows.take (first + count)).length = first + count :=
    List.length_take_of_le (by omega)
  have isTake : (blit rows (first + count) first (height - count)).take first =
      rows.take first := by
    unfold blit
    rw [List.append_assoc, List.take_append_of_le_length (by omega), List.take_take,
      Nat.min_eq_left (by omega)]
  have isDrop : (blit rows (first + count) first (height - count)).drop (first + count) =
      (rows.drop first).take (height - count) ++ rows.drop (first + height) := by
    unfold blit
    rw [List.append_assoc, List.drop_left' front]
    congr 2
    omega
  unfold fill onRegion shiftDown
  rw [isTake, isDrop, length_region high, Nat.min_eq_left le, List.take_take, Nat.min_eq_left (by omega)]
  simp only [List.append_assoc]

end

/-! ## Counts beyond the region -/

section

variable {rows : List α} {first height : Nat} (high : first + height ≤ rows.length) (blank : α)
  (count : Nat)

include high

/-- A shift by more rows than there are is one by all of them. -/
theorem onRegion_shiftUp_min :
    onRegion first height (shiftUp blank (min count height)) rows =
      onRegion first height (shiftUp blank count) rows := by
  unfold onRegion shiftUp
  rw [length_region high]
  by_cases le : count ≤ height
  · rw [Nat.min_eq_left le, Nat.min_eq_left le]
  · have ge : height ≤ count := by omega
    have nothing (k : Nat) (beyond : height ≤ k) :
        ((rows.drop first).take height).drop k = [] := by
      apply List.drop_eq_nil_of_le
      rw [length_region high]
      exact beyond
    rw [Nat.min_eq_right ge, Nat.min_self, nothing count ge, nothing height (Nat.le_refl _)]

theorem onRegion_shiftDown_min :
    onRegion first height (shiftDown blank (min count height)) rows =
      onRegion first height (shiftDown blank count) rows := by
  unfold onRegion shiftDown
  rw [length_region high]
  by_cases le : count ≤ height
  · rw [Nat.min_eq_left le, Nat.min_eq_left le]
  · have ge : height ≤ count := by omega
    rw [Nat.min_eq_right ge, Nat.min_self, Nat.sub_self, Nat.sub_eq_zero_of_le ge]

end

/-! ## The grid keeps its shape -/

theorem length_onRegion {first height : Nat} {change : List α → List α} {rows : List α}
    (keeps : ∀ region, (change region).length = region.length) :
    (onRegion first height change rows).length = rows.length := by
  unfold onRegion
  rw [List.length_append, List.length_append, keeps]
  simp only [List.length_take, List.length_drop]
  omega

theorem length_shiftUp (blank : α) (count : Nat) (region : List α) :
    (shiftUp blank count region).length = region.length := by
  simp only [shiftUp, List.length_append, List.length_drop, List.length_replicate]
  omega

theorem length_shiftDown (blank : α) (count : Nat) (region : List α) :
    (shiftDown blank count region).length = region.length := by
  simp only [shiftDown, List.length_append, List.length_take, List.length_replicate]
  omega

theorem Uniform.onRegion {width first height : Nat} {rows : List (List α)}
    {change : List (List α) → List (List α)} (uniform : Uniform width rows)
    (keeps : ∀ region, Uniform width region → Uniform width (change region)) :
    Uniform width (onRegion first height change rows) := by
  intro row member
  rw [Grid.onRegion, List.mem_append, List.mem_append] at member
  rcases member with (member | member) | member
  · exact uniform.take first row member
  · exact keeps _ ((uniform.drop first).take height) row member
  · exact uniform.drop (first + height) row member

theorem Uniform.shiftUp {width : Nat} {blank : List α} (isBlank : blank.length = width)
    (count : Nat) (region : List (List α)) (uniform : Uniform width region) :
    Uniform width (shiftUp blank count region) := by
  intro row member
  cases List.mem_append.mp member with
  | inl kept => exact uniform.drop count row kept
  | inr fresh => rw [List.eq_of_mem_replicate fresh, isBlank]

theorem Uniform.shiftDown {width : Nat} {blank : List α} (isBlank : blank.length = width)
    (count : Nat) (region : List (List α)) (uniform : Uniform width region) :
    Uniform width (shiftDown blank count region) := by
  intro row member
  cases List.mem_append.mp member with
  | inl fresh => rw [List.eq_of_mem_replicate fresh, isBlank]
  | inr kept => exact uniform.take _ row kept

theorem onRegion_shiftDown_zero (first height : Nat) (blank : α) (rows : List α) :
    onRegion first height (shiftDown blank 0) rows = rows := by
  unfold onRegion shiftDown
  rw [Nat.zero_min, List.replicate_zero, List.nil_append, Nat.sub_zero, List.take_length,
    ← List.drop_drop, List.append_assoc, List.take_append_drop, List.take_append_drop]

end Aholyc.Lib.Grid
