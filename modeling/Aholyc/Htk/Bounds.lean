import Mathlib.Tactic.Linarith
import Aholyc.Htk.Terminal

/-!
# The terminal stays on its screen

`InBounds` is the invariant of the terminal between two steps, `Screen` the part
of it that does not speak of the cursor. Drawing changes cells only (`Redrawn`);
each control function is given by what it leaves. Some bytes and resizes break
the invariant: `Steady` says before a step that it is none of them.
-/

namespace Aholyc.Htk

open Aholyc.Lib.Hoare

/-! ## Words -/

theorem i64_spec (x : Int) : ∃ k, i64 x = x - 18446744073709551616 * k ∧
    -9223372036854775808 ≤ i64 x ∧ i64 x < 9223372036854775808 := by
  unfold i64 Int.bmod
  dsimp only
  split
  · exact ⟨x / 18446744073709551616, by omega, by omega, by omega⟩
  · exact ⟨x / 18446744073709551616 + 1, by omega, by omega, by omega⟩

theorem i64_of_word {x : Int} (low : -9223372036854775808 ≤ x) (high : x < 9223372036854775808) :
    i64 x = x := by
  obtain ⟨k, eq, atLeast, below⟩ := i64_spec x
  omega

theorem i64_address {x : Int} (low : 0 ≤ x) (high : x * 8 < 9223372036854775808) :
    i64 (i64 x * 8) = x * 8 := by
  rw [i64_of_word (x := x) (by omega) (by omega)]
  exact i64_of_word (by omega) (by omega)

/-! ## The invariant -/

/-- The screen and the parser of a terminal are well formed. -/
structure Screen (t : CHtkTerm) : Prop where
  wide : 2 ≤ t.cols
  tall : 1 ≤ t.rows
  small : t.rows * t.cols * 8 < 9223372036854775808
  block : ∃ cells, t.cells = some cells ∧ (cells.length : Int) = t.rows * t.cols
  top : 0 ≤ t.top
  region : t.top ≤ t.bottom
  bottom : t.bottom < t.rows
  nparams : t.nparams ≤ htkTermParams
  params : t.params.length = htkTermParams
  words : ∀ p ∈ t.params, -9223372036854775808 ≤ p ∧ p < 9223372036854775808
  utf8Len : t.utf8Len < 4
  utf8 : t.utf8.length = 8

structure InBounds (t : CHtkTerm) : Prop extends Screen t where
  left : 0 ≤ t.cx
  right : t.cx ≤ t.cols
  above : 0 ≤ t.cy
  below : t.cy < t.rows

def Redrawn (t t' : CHtkTerm) : Prop :=
  ∃ cells cells', t.cells = some cells ∧ cells'.length = cells.length ∧
    t' = { t with cells := some cells' }

abbrev Safe {α : Type} (post : α → CHtkTerm → Prop) (run : Term α) (t : CHtkTerm) : Prop :=
  Ends (fun _ : Fault => False) post run t

theorem Screen.cursor {t : CHtkTerm} (screen : Screen t) (cx cy savedX savedY : Int) :
    Screen { t with cx := cx, cy := cy, savedX := savedX, savedY := savedY } := { screen with }

theorem Screen.redrawn {t : CHtkTerm} (screen : Screen t) : Redrawn t t := by
  obtain ⟨cells, isBlock, _⟩ := screen.block
  refine ⟨cells, cells, isBlock, rfl, ?_⟩
  rw [← isBlock]

variable {t' : CHtkTerm} {row target source first last cols rows : Int} {byte : UInt8}

theorem Redrawn.trans {t t'' : CHtkTerm} (first : Redrawn t t') (second : Redrawn t' t'') :
    Redrawn t t'' := by
  obtain ⟨cells, cells', isBlock, length, rfl⟩ := first
  obtain ⟨_, cells'', isBlock', length', rfl⟩ := second
  cases isBlock'
  exact ⟨cells, cells'', isBlock, length'.trans length, rfl⟩

theorem Redrawn.screen {t : CHtkTerm} (redrawn : Redrawn t t') (screen : Screen t) : Screen t' := by
  obtain ⟨cells, cells', isBlock, length, rfl⟩ := redrawn
  obtain ⟨_, isBlock', size⟩ := screen.block
  rw [isBlock] at isBlock'
  cases isBlock'
  exact { screen with block := ⟨cells', rfl, by rw [length]; exact size⟩ }

theorem Redrawn.inBounds {t : CHtkTerm} (redrawn : Redrawn t t') (inside : InBounds t) :
    InBounds t' := by
  have screen := redrawn.screen inside.toScreen
  obtain ⟨_, _, _, _, rfl⟩ := redrawn
  exact { screen with
    left := inside.left
    right := inside.right
    above := inside.above
    below := inside.below }

/-- The first cell of a row lies before the end of the screen. -/
theorem Screen.row_low {t : CHtkTerm} (screen : Screen t) (low : 0 ≤ row) : 0 ≤ row * t.cols := by
  have wide := screen.wide
  exact Int.mul_nonneg low (by omega)

theorem Screen.row_le {t : CHtkTerm} (screen : Screen t) {row' : Int} (le : row ≤ row') :
    row * t.cols ≤ row' * t.cols := by
  have wide := screen.wide
  exact Int.mul_le_mul_of_nonneg_right le (by omega)

theorem Screen.cell {t : CHtkTerm} (screen : Screen t) {col : Int} (above : 0 ≤ row)
    (below : row < t.rows) (left : 0 ≤ col) (right : col < t.cols) :
    0 ≤ row * t.cols + col ∧ row * t.cols + col < t.rows * t.cols ∧
      i64 (row * t.cols + col) = row * t.cols + col := by
  have low := screen.row_low above
  have high : (row + 1) * t.cols ≤ t.rows * t.cols := screen.row_le (by omega)
  rw [Int.add_mul] at high
  have small := screen.small
  exact ⟨by omega, by omega, i64_of_word (by omega) (by omega)⟩

/-! ## Cells -/

section Drawing

variable {t s : CHtkTerm} (screen : Screen t) (redrawn : Redrawn t s)

include screen redrawn

theorem writeCell_draws {index : Int} (cell : UInt64) (low : 0 ≤ index)
    (high : index < t.rows * t.cols) : Safe (fun _ => Redrawn t) (writeCell index cell) s := by
  obtain ⟨cells, cells', isBlock, length, rfl⟩ := redrawn
  obtain ⟨_, isBlock', size⟩ := screen.block
  rw [isBlock] at isBlock'
  cases isBlock'
  have inside : 0 ≤ index ∧ index < cells'.length := ⟨low, by omega⟩
  unfold writeCell
  rw [Safe, ends_bind, ends_get]
  dsimp only
  rw [if_pos inside, ends_set]
  exact ⟨cells, cells'.set index.toNat cell, isBlock, by rw [List.length_set, length], rfl⟩

theorem readCell_draws {index : Int} (low : 0 ≤ index) (high : index < t.rows * t.cols) :
    Safe (fun _ => Redrawn t) (readCell index) s := by
  obtain ⟨cells, cells', isBlock, length, rfl⟩ := redrawn
  obtain ⟨_, isBlock', size⟩ := screen.block
  rw [isBlock] at isBlock'
  cases isBlock'
  have inside : 0 ≤ index ∧ index < cells'.length := ⟨low, by omega⟩
  unfold readCell
  rw [Safe, ends_bind, ends_get]
  dsimp only
  rw [if_pos inside, ends_pure]
  exact ⟨cells, cells', isBlock, length, rfl⟩

end Drawing

/-- A block that is copied inside the two lists leaves the length as it was. -/
theorem copyCells_ok (dst src : List UInt64) (target source bytes : Int)
    (low : 0 ≤ i64 (target * 8)) (low' : 0 ≤ i64 (source * 8)) (count : 0 ≤ bytes)
    (whole : bytes % 8 = 0) (high : i64 (target * 8) + bytes ≤ dst.length * 8)
    (high' : i64 (source * 8) + bytes ≤ src.length * 8) :
    ∃ copied, copyCells dst src target source bytes = .ok copied ∧
      copied.length = dst.length := by
  refine ⟨_, if_pos ⟨low, low', count, high, high'⟩, ?_⟩
  obtain ⟨k, isTarget, _, _⟩ := i64_spec (target * 8)
  obtain ⟨k', isSource, _, _⟩ := i64_spec (source * 8)
  simp only [List.length_append, List.length_take, List.length_drop]
  omega

theorem moveCells_draws {t : CHtkTerm} (screen : Screen t) {bytes : Int}
    (low : 0 ≤ i64 (target * 8)) (low' : 0 ≤ i64 (source * 8)) (count : 0 ≤ bytes)
    (whole : bytes % 8 = 0) (high : i64 (target * 8) + bytes ≤ t.rows * t.cols * 8)
    (high' : i64 (source * 8) + bytes ≤ t.rows * t.cols * 8) :
    Safe (fun _ => Redrawn t) (moveCells target source bytes) t := by
  obtain ⟨cells, isBlock, size⟩ := screen.block
  obtain ⟨moved, copied, length⟩ := copyCells_ok cells cells target source bytes low low'
    count whole (by rw [size]; exact high) (by rw [size]; exact high')
  unfold moveCells
  rw [Safe, ends_bind, ends_get]
  simp only [isBlock, copied]
  rw [ends_set]
  exact ⟨cells, moved, isBlock, length, rfl⟩

/-! ## The screen buffer -/

/-- Clearing rows draws when the loop starts and ends on the screen. -/
theorem clearRows_draws {t : CHtkTerm} (screen : Screen t) (low : 0 ≤ i64 (first * t.cols))
    (high : i64 ((last + 1) * t.cols) ≤ t.rows * t.cols) :
    Safe (fun _ => Redrawn t) (htkTermClearRows first last) t := by
  unfold htkTermClearRows
  rw [Safe, ends_bind, ends_get]
  apply ends_forUp screen.redrawn
  intro i s start stop redrawn
  apply writeCell_draws screen redrawn
  · omega
  · omega

theorem clearRows_rows {t : CHtkTerm} (screen : Screen t) (low : 0 ≤ first) (le : first ≤ last + 1)
    (high : last < t.rows) : Safe (fun _ => Redrawn t) (htkTermClearRows first last) t := by
  have start := screen.row_low low
  have order := screen.row_le le
  have stop : (last + 1) * t.cols ≤ t.rows * t.cols := screen.row_le (by omega)
  have small := screen.small
  have startWord := i64_of_word (x := first * t.cols) (by omega) (by omega)
  have stopWord := i64_of_word (x := (last + 1) * t.cols) (by omega) (by omega)
  apply clearRows_draws screen
  · omega
  · omega

theorem clearRange_draws {t : CHtkTerm} (screen : Screen t) (above : 0 ≤ row) (below : row < t.rows)
    (left : 0 ≤ first) : Safe (fun _ => Redrawn t) (htkTermClearRange row first last) t := by
  unfold htkTermClearRange
  rw [Safe, ends_bind, ends_get]
  apply ends_forUp screen.redrawn
  intro i s start stop redrawn
  have inside := screen.cell above below (show 0 ≤ i by omega) (show i < t.cols by omega)
  rw [inside.2.2]
  exact writeCell_draws screen redrawn _ inside.1 inside.2.1

theorem Safe.then {t : CHtkTerm} {first second : Term Unit}
    (draws : Safe (fun _ => Redrawn t) first t)
    (next : ∀ s, Redrawn t s → Safe (fun _ => Redrawn s) second s) :
    Safe (fun _ => Redrawn t) (first >>= fun _ => second) t := by
  rw [Safe, ends_bind]
  apply draws.mono
  intro _ s redrawn
  apply (next s redrawn).mono
  intro _ s' redrawn'
  exact redrawn.trans redrawn'

/-- Copying whole rows of the screen; the addresses are given by what they wrap to. -/
theorem moveRows_draws {t : CHtkTerm} (screen : Screen t) (a height : Int) {bytes b : Int}
    (isTarget : i64 (target * 8) = a * t.cols * 8) (isSource : i64 (source * 8) = b * t.cols * 8)
    (isBytes : bytes = height * t.cols * 8) (low : 0 ≤ a) (low' : 0 ≤ b) (count : 0 ≤ height)
    (high : a + height ≤ t.rows) (high' : b + height ≤ t.rows) :
    Safe (fun _ => Redrawn t) (moveCells target source bytes) t := by
  have start := screen.row_low low
  have start' := screen.row_low low'
  have size := screen.row_low count
  have stop := screen.row_le high
  have stop' := screen.row_le high'
  rw [Int.add_mul] at stop stop'
  apply moveCells_draws screen
  · omega
  · omega
  · omega
  · omega
  · omega
  · omega

/-- The sizes of a screen are far below the largest word. -/
theorem Screen.words_small {t : CHtkTerm} (screen : Screen t) :
    t.rows * 16 < 9223372036854775808 ∧ t.cols * 8 < 9223372036854775808 := by
  have wide := screen.wide
  have tall := screen.tall
  have small := screen.small
  have rows : t.rows * 2 ≤ t.rows * t.cols := Int.mul_le_mul_of_nonneg_left wide (by omega)
  have cols : 1 * t.cols ≤ t.rows * t.cols := screen.row_le tall
  omega

/-- The addresses of whole rows that lie on the screen. -/
theorem Screen.row_address {t : CHtkTerm} (screen : Screen t) (low : 0 ≤ row) (high : row ≤ t.rows) :
    i64 (i64 (row * t.cols) * 8) = row * t.cols * 8 := by
  have start := screen.row_low low
  have stop := screen.row_le high
  have small := screen.small
  exact i64_address start (by omega)

section Scroll

variable {t : CHtkTerm} (screen : Screen t) {count : Int}

include screen

theorem scrollUp_draws (low : 0 ≤ count) (high : count ≤ t.bottom - t.top + 1) :
    Safe (fun _ => Redrawn t) (do
      moveCells (i64 (t.top * t.cols)) (i64 ((t.top + count) * t.cols))
        (i64 ((t.bottom - t.top + 1 - count) * t.cols * 8))
      htkTermClearRows (i64 (t.bottom - count + 1)) t.bottom) t := by
  have top := screen.top
  have bottom := screen.bottom
  have bounds := screen.words_small
  have small := screen.small
  have size := screen.row_low (show 0 ≤ t.bottom - t.top + 1 - count by omega)
  have fits : (t.bottom - t.top + 1 - count) * t.cols ≤ t.rows * t.cols :=
    screen.row_le (by omega)
  apply Safe.then
  · apply moveRows_draws screen _ _ (screen.row_address top (by omega))
      (screen.row_address (show 0 ≤ t.top + count by omega) (by omega))
      (i64_of_word (by omega) (by omega))
    · exact top
    · omega
    · omega
    · omega
    · omega
  · intro s redrawn
    obtain ⟨_, _, _, _, rfl⟩ := id redrawn
    rw [i64_of_word (x := t.bottom - count + 1) (by omega) (by omega)]
    apply clearRows_rows (redrawn.screen screen)
    · omega
    · omega
    · exact bottom

theorem scrollDown_draws (low : 0 ≤ count) (high : count ≤ t.bottom - t.top + 1) :
    Safe (fun _ => Redrawn t) (do
      moveCells (i64 ((t.top + count) * t.cols)) (i64 (t.top * t.cols))
        (i64 ((t.bottom - t.top + 1 - count) * t.cols * 8))
      htkTermClearRows t.top (i64 (t.top + count - 1))) t := by
  have top := screen.top
  have bottom := screen.bottom
  have bounds := screen.words_small
  have small := screen.small
  have size := screen.row_low (show 0 ≤ t.bottom - t.top + 1 - count by omega)
  have fits : (t.bottom - t.top + 1 - count) * t.cols ≤ t.rows * t.cols :=
    screen.row_le (by omega)
  apply Safe.then
  · apply moveRows_draws screen _ _
      (screen.row_address (show 0 ≤ t.top + count by omega) (by omega))
      (screen.row_address top (by omega)) (i64_of_word (by omega) (by omega))
    · omega
    · exact top
    · omega
    · omega
    · omega
  · intro s redrawn
    obtain ⟨_, _, _, _, rfl⟩ := id redrawn
    rw [i64_of_word (x := t.top + count - 1) (by omega) (by omega)]
    apply clearRows_rows (redrawn.screen screen)
    · exact top
    · show t.top ≤ t.top + count - 1 + 1
      omega
    · show t.top + count - 1 < t.rows
      omega

/-- The least word has no opposite, so it stays below zero as a count. It leaves the
addresses and the size of the copy as a count of nothing does. -/
theorem least_words (least : count = -9223372036854775808) :
    i64 (i64 ((t.top + count) * t.cols) * 8) = t.top * t.cols * 8 ∧
      i64 ((t.bottom - t.top + 1 - count) * t.cols * 8) = (t.bottom - t.top + 1) * t.cols * 8 := by
  have top := screen.top
  have region := screen.region
  have bottom := screen.bottom
  have bounds := screen.words_small
  have small := screen.small
  have start := screen.row_low top
  have size := screen.row_low (show 0 ≤ t.bottom - t.top + 1 by omega)
  have fits : (t.bottom - t.top + 1) * t.cols ≤ t.rows * t.cols := screen.row_le (by omega)
  have inside : t.top * t.cols ≤ t.rows * t.cols := screen.row_le (by omega)
  have spread : (t.top + count) * t.cols = t.top * t.cols - 9223372036854775808 * t.cols := by
    rw [least, Int.add_mul]
    omega
  have rest : (t.bottom - t.top + 1 - count) * t.cols =
      (t.bottom - t.top + 1) * t.cols + 9223372036854775808 * t.cols := by
    rw [least, Int.sub_mul]
    omega
  constructor
  · obtain ⟨a, target, _, _⟩ := i64_spec ((t.top + count) * t.cols)
    obtain ⟨b, address, _, _⟩ := i64_spec (i64 ((t.top + count) * t.cols) * 8)
    omega
  · obtain ⟨a, bytes, _, _⟩ := i64_spec ((t.bottom - t.top + 1 - count) * t.cols * 8)
    omega

theorem scrollLeast_draws (least : count = -9223372036854775808) :
    Safe (fun _ => Redrawn t) (do
      moveCells (i64 ((t.top + count) * t.cols)) (i64 (t.top * t.cols))
        (i64 ((t.bottom - t.top + 1 - count) * t.cols * 8))
      htkTermClearRows t.top (i64 (t.top + count - 1))) t := by
  have top := screen.top
  have region := screen.region
  have bottom := screen.bottom
  have bounds := screen.words_small
  have small := screen.small
  have start := screen.row_low top
  have inside : t.top * t.cols ≤ t.rows * t.cols := screen.row_le (by omega)
  have spread : (t.top + count) * t.cols = t.top * t.cols - 9223372036854775808 * t.cols := by
    rw [least, Int.add_mul]
    omega
  obtain ⟨target, bytes⟩ := least_words screen least
  apply Safe.then
  · exact moveRows_draws screen t.top (t.bottom - t.top + 1) target
      (screen.row_address top (by omega)) bytes top top (by omega) (by omega) (by omega)
  intro s redrawn
  obtain ⟨_, _, _, _, rfl⟩ := id redrawn
  apply clearRows_draws (redrawn.screen screen)
  · show 0 ≤ i64 (t.top * t.cols)
    rw [i64_of_word (by omega) (by omega)]
    exact start
  show i64 ((i64 (t.top + count - 1) + 1) * t.cols) ≤ t.rows * t.cols
  obtain ⟨a, last, _, _⟩ := i64_spec (t.top + count - 1)
  obtain ⟨b, stop, _, _⟩ := i64_spec ((i64 (t.top + count - 1) + 1) * t.cols)
  have isLast : (i64 (t.top + count - 1) + 1) * t.cols =
      (t.top + count) * t.cols - 18446744073709551616 * (a * t.cols) := by
    rw [last, ← Int.mul_assoc, ← Int.sub_mul]
    congr 1
    omega
  omega

theorem scroll_draws {lines : Int} (low : -9223372036854775808 ≤ lines) :
    Safe (fun _ => Redrawn t) (htkTermScroll lines) t := by
  have top := screen.top
  have region := screen.region
  have bottom := screen.bottom
  have bounds := screen.words_small
  have height := i64_of_word (x := t.bottom - t.top + 1) (by omega) (by omega)
  unfold htkTermScroll htkTermScrollOver
  rw [Safe, ends_bind, ends_get]
  simp only [height]
  by_cases up : lines > 0
  · have notDown : ¬lines < 0 := by omega
    rw [if_pos up, if_neg notDown]
    apply scrollUp_draws screen
    · split <;> omega
    · split <;> omega
  rw [if_neg up]
  by_cases down : lines < 0
  · rw [if_pos down, if_pos down]
    by_cases least : lines = -9223372036854775808
    · rw [least]
      have stays : i64 (- -9223372036854775808) = -9223372036854775808 := by decide
      rw [stays, if_neg (by omega)]
      exact scrollLeast_draws screen rfl
    · rw [i64_of_word (x := -lines) (by omega) (by omega)]
      apply scrollDown_draws screen
      · split <;> omega
      · split <;> omega
  · rw [if_neg down]
    exact screen.redrawn

end Scroll

/-! ## Another size -/

theorem copyRows_ok {old : List UInt64} {oldCols oldRows keep : Int}
    (block : (old.length : Int) = oldRows * oldCols)
    (small : oldRows * oldCols * 8 < 9223372036854775808)
    (small' : rows * cols * 8 < 9223372036854775808) (low : 0 ≤ keep) (fits : keep ≤ oldCols)
    (fits' : keep ≤ cols) {count : Nat} {fresh : List UInt64} {y : Int}
    (length : (fresh.length : Int) = rows * cols) (from_ : 0 ≤ y) (stop : y + count ≤ oldRows)
    (stop' : y + count ≤ rows) :
    ∃ cells, copyRows old oldCols cols keep fresh y count = .ok cells ∧
      (cells.length : Int) = rows * cols := by
  induction count generalizing fresh y with
  | zero => exact ⟨fresh, rfl, length⟩
  | succ count ih =>
    have start : 0 ≤ y * oldCols := Int.mul_nonneg from_ (by omega)
    have start' : 0 ≤ y * cols := Int.mul_nonneg from_ (by omega)
    have row : (y + 1) * oldCols ≤ oldRows * oldCols :=
      Int.mul_le_mul_of_nonneg_right (by omega) (by omega)
    have row' : (y + 1) * cols ≤ rows * cols :=
      Int.mul_le_mul_of_nonneg_right (by omega) (by omega)
    rw [Int.add_mul] at row row'
    have target := i64_address start' (by omega)
    have source := i64_address start (by omega)
    have bytes := i64_of_word (x := keep * 8) (by omega) (by omega)
    obtain ⟨cells, copied, same⟩ := copyCells_ok fresh old (i64 (y * cols))
      (i64 (y * oldCols)) (i64 (keep * 8))
      (by omega) (by omega) (by omega) (by omega) (by omega) (by omega)
    unfold copyRows
    rw [copied]
    apply ih
    · omega
    · omega
    · omega
    · omega

theorem freshCells_ok (wide : 2 ≤ cols) (tall : 1 ≤ rows)
    (small : rows * cols * 8 < 9223372036854775808) :
    ∃ cells, freshCells cols rows = .ok cells ∧ (cells.length : Int) = rows * cols := by
  have low : 0 ≤ cols * rows := Int.mul_nonneg (by omega) (by omega)
  rw [Int.mul_comm rows] at small
  have bytes := i64_of_word (x := cols * rows * 8) (by omega) small
  have size := i64_of_word (x := cols * rows) (by omega) (by omega)
  refine ⟨_, if_pos (by omega), ?_⟩
  rw [List.length_replicate, Int.mul_comm rows]
  omega

/-- A new screen can be made from the old one and from the empty block of a new
control. -/
theorem newScreen_inBounds {t : CHtkTerm} (wide : 2 ≤ cols) (tall : 1 ≤ rows)
    (small : rows * cols * 8 < 9223372036854775808) (before : InBounds t ∨ t = emptyTerm) :
    Safe (fun _ => InBounds) (newScreen cols rows) t := by
  obtain ⟨fresh, isFresh, length⟩ := freshCells_ok wide tall small
  have kept : ∃ cells, keptCells t cols rows fresh = .ok cells ∧
      (cells.length : Int) = rows * cols := by
    cases before with
    | inr empty =>
      rw [empty]
      exact ⟨fresh, rfl, length⟩
    | inl inside =>
      have wide' := inside.wide
      have tall' := inside.tall
      obtain ⟨old, isBlock, size⟩ := inside.block
      unfold keptCells
      rw [isBlock]
      apply copyRows_ok size inside.small small _ _ _ length (Int.le_refl 0)
      · omega
      · omega
      · split <;> omega
      · split <;> omega
      · split <;> omega
  obtain ⟨cells, isKept, size⟩ := kept
  unfold newScreen
  rw [Safe, ends_bind, ends_get]
  simp only [isFresh, isKept]
  rw [ends_set]
  have parser : t.nparams ≤ htkTermParams ∧ t.params.length = htkTermParams ∧
      (∀ p ∈ t.params, -9223372036854775808 ≤ p ∧ p < 9223372036854775808) ∧ t.utf8Len < 4 ∧
      t.utf8.length = 8 ∧ 0 ≤ t.cx ∧ 0 ≤ t.cy := by
    cases before with
    | inr empty =>
      rw [empty]
      decide
    | inl inside =>
      exact ⟨inside.nparams, inside.params, inside.words, inside.utf8Len, inside.utf8,
        inside.left, inside.above⟩
  obtain ⟨nparams, params, words, utf8Len, utf8, left, above⟩ := parser
  exact {
    wide := wide
    tall := tall
    small := small
    block := ⟨cells, rfl, size⟩
    top := Int.le_refl _
    region := (show 0 ≤ rows - 1 by omega)
    bottom := (show rows - 1 < rows by omega)
    nparams := nparams
    params := params
    words := words
    utf8Len := utf8Len
    utf8 := utf8
    left := (show 0 ≤ if t.cx ≥ cols then cols - 1 else t.cx by split <;> omega)
    right := (show (if t.cx ≥ cols then cols - 1 else t.cx) ≤ cols by split <;> omega)
    above := (show 0 ≤ if t.cy ≥ rows then rows - 1 else t.cy by split <;> omega)
    below := (show (if t.cy ≥ rows then rows - 1 else t.cy) < rows by split <;> omega) }

/-- A screen of this size has a block whose size in bytes is a word. -/
def SizeFits (cols rows : Int) : Prop :=
  (if rows < 1 then 1 else rows) * (if cols < 2 then 2 else cols) * 8 < 9223372036854775808

instance (cols rows : Int) : Decidable (SizeFits cols rows) :=
  inferInstanceAs (Decidable (_ < _))

theorem resize_inBounds {t : CHtkTerm} {granted : Bool} (fits : granted = true → SizeFits cols rows)
    (before : InBounds t ∨ t = emptyTerm ∧ granted = true) :
    Safe (fun _ => InBounds) (htkTermResize granted cols rows) t := by
  unfold htkTermResize
  rw [Safe, ends_bind, ends_get, ends_ite]
  constructor
  · intro same
    cases before with
    | inl inside => exact inside
    | inr empty =>
      rw [empty.1] at same
      cases same.2.2
  · intro _
    rw [ends_ite]
    constructor
    · intro isGranted
      apply newScreen_inBounds _ _ (fits isGranted)
      · exact before.imp_right And.left
      · split <;> omega
      · split <;> omega
    · intro refused
      cases before with
      | inl inside => exact inside
      | inr empty => exact absurd empty.2 refused

/-! ## Output -/

theorem newline_inBounds {t : CHtkTerm} (inside : InBounds t) :
    Safe (fun _ s => InBounds s ∧ s.cx = t.cx ∧ s.cols = t.cols) htkTermNewline t := by
  unfold htkTermNewline
  rw [Safe, ends_bind, ends_get, ends_ite]
  constructor
  · intro _
    apply (scroll_draws inside.toScreen (show -9223372036854775808 ≤ (1 : Int) by decide)).mono
    intro _ s redrawn
    have kept := redrawn.inBounds inside
    obtain ⟨_, _, _, _, rfl⟩ := redrawn
    exact ⟨kept, rfl, rfl⟩
  · intro _
    have above := inside.above
    rw [ends_ite]
    constructor
    · intro room
      exact ⟨{ inside with
        above := (show 0 ≤ t.cy + 1 by omega)
        below := (show t.cy + 1 < t.rows by omega) }, rfl, rfl⟩
    · intro _
      exact ⟨inside, rfl, rfl⟩

theorem wrap_inBounds {t : CHtkTerm} (inside : InBounds t) :
    Safe (fun _ s => InBounds s ∧ s.cx < s.cols) deferredWrap t := by
  unfold deferredWrap
  rw [Safe, ends_bind, ends_get, ends_ite]
  constructor
  · intro _
    have wide := inside.wide
    rw [ends_bind, ends_set]
    apply (newline_inBounds (t := { t with cx := 0 }) { inside with
      left := Int.le_refl _, right := (show 0 ≤ t.cols by omega) }).mono
    intro _ s ended
    obtain ⟨kept, column, cols⟩ := ended
    refine ⟨kept, ?_⟩
    rw [column, cols]
    show 0 < t.cols
    omega
  · intro room
    exact ⟨inside, by omega⟩

theorem put_inBounds {t : CHtkTerm} (inside : InBounds t) (rune : UInt64) :
    Safe (fun _ => InBounds) (htkTermPut rune) t := by
  unfold htkTermPut
  rw [Safe, ends_bind]
  apply (wrap_inBounds inside).mono
  intro _ s wrapped
  obtain ⟨kept, room⟩ := wrapped
  have cell := kept.toScreen.cell kept.above kept.below kept.left room
  rw [ends_bind, ends_get, ends_bind, cell.2.2]
  apply (writeCell_draws kept.toScreen kept.toScreen.redrawn _ cell.1 cell.2.1).mono
  intro _ s' redrawn
  have drawn := redrawn.inBounds kept
  obtain ⟨_, _, _, _, rfl⟩ := redrawn
  rw [ends_modify]
  have left := kept.left
  exact { drawn with
    left := (show 0 ≤ s.cx + 1 by omega)
    right := (show s.cx + 1 ≤ s.cols by omega) }

/-! ## Control functions -/

/-- A parameter is a word, and so are the texts' defaults. -/
theorem param_word {t : CHtkTerm} (screen : Screen t) (index : Nat) (fallback : Int)
    (low : -9223372036854775808 ≤ fallback) (high : fallback < 9223372036854775808) :
    -9223372036854775808 ≤ htkTermParam t index fallback ∧
      htkTermParam t index fallback < 9223372036854775808 := by
  unfold htkTermParam
  split
  · exact ⟨low, high⟩
  next used =>
    have inside : index < t.params.length := by
      have nparams := screen.nparams
      rw [screen.params]
      omega
    rw [List.getD_eq_getElem?_getD, List.getElem?_eq_getElem inside, Option.getD_some]
    exact screen.words _ (List.getElem_mem inside)

section Controls

variable {t : CHtkTerm} (inside : InBounds t)

include inside

theorem scrollBelow_draws {lines : Int} (low : -9223372036854775808 ≤ lines) :
    Safe (fun _ => Redrawn t) (scrollBelowOver moveCells lines) t := by
  unfold scrollBelowOver
  rw [Safe, ends_bind, ends_get, ends_ite]
  constructor
  · intro region
    obtain ⟨above, below⟩ := region
    have lower : Screen { t with top := t.cy } := { inside.toScreen with
      top := inside.above
      region := below }
    rw [ends_bind, ends_set, ends_bind]
    apply (scroll_draws lower low).mono
    intro _ s redrawn
    obtain ⟨cells, cells', isBlock, length, rfl⟩ := redrawn
    rw [ends_modify]
    exact ⟨cells, cells', isBlock, length, rfl⟩
  · intro _
    exact inside.toScreen.redrawn

theorem eraseDisplay_draws (n : Int) : Safe (fun _ => Redrawn t) (eraseDisplay n) t := by
  have screen := inside.toScreen
  have tall := screen.tall
  have above := inside.above
  have below := inside.below
  unfold eraseDisplay
  rw [Safe, ends_bind, ends_get, ends_ite]
  constructor
  · intro _
    apply Safe.then (clearRange_draws screen above below inside.left)
    intro s redrawn
    have screen' := redrawn.screen screen
    obtain ⟨_, _, _, _, rfl⟩ := redrawn
    rw [Safe, ends_ite]
    constructor
    · intro more
      apply clearRows_rows screen'
      · omega
      · omega
      · show t.rows - 1 < t.rows
        omega
    · intro _
      exact screen'.redrawn
  · intro _
    rw [ends_ite]
    constructor
    · intro _
      rw [ends_ite]
      constructor
      · intro _
        apply Safe.then (clearRows_rows screen (Int.le_refl _) (by omega) (by omega))
        intro s redrawn
        have screen' := redrawn.screen screen
        obtain ⟨_, _, _, _, rfl⟩ := redrawn
        exact clearRange_draws screen' above below (Int.le_refl _)
      · intro _
        exact clearRange_draws screen above below (Int.le_refl _)
    · intro _
      exact clearRows_rows screen (Int.le_refl _) (by omega) (by omega)

theorem eraseLine_draws (n : Int) : Safe (fun _ => Redrawn t) (eraseLine n) t := by
  have screen := inside.toScreen
  unfold eraseLine
  rw [Safe, ends_bind, ends_get, ends_ite]
  constructor
  · intro _
    exact clearRange_draws screen inside.above inside.below inside.left
  · intro _
    rw [ends_ite]
    constructor
    · intro _
      exact clearRange_draws screen inside.above inside.below (Int.le_refl _)
    · intro _
      exact clearRange_draws screen inside.above inside.below (Int.le_refl _)

/-- `deleteChars n` takes each cell it moves from the screen: `n` does not lead before
the first cell, nor past the largest word. -/
def DeletesInside (t : CHtkTerm) (n : Int) : Prop :=
  t.cols ≤ t.cx ∨
    -(t.cy * t.cols + t.cx) ≤ n ∧ n + t.cols ≤ 9223372036854775808

/-- `insertBlanks n` takes each cell it moves from the screen: `n` does not lead behind
the last cell, or each sum wraps. -/
def InsertsInside (t : CHtkTerm) (n : Int) : Prop :=
  t.cols ≤ t.cx ∨ t.cols - n ≤ (t.rows - t.cy) * t.cols ∨ 9223372036854775808 ≤ t.cx - n

instance (n : Int) : Decidable (DeletesInside t n) := inferInstanceAs (Decidable (_ ∨ _))

instance (n : Int) : Decidable (InsertsInside t n) := inferInstanceAs (Decidable (_ ∨ _))

/-- One round of the loops that move cells along the cursor's row. -/
theorem moveCell_draws {s : CHtkTerm} (redrawn : Redrawn t s) {moved : Prop} [Decidable moved]
    (left : 0 ≤ target) (right : target < t.cols)
    (from_ : moved → 0 ≤ i64 source ∧ i64 source < t.rows * t.cols) :
    Safe (fun _ => Redrawn t) (do
      if moved then
        writeCell (i64 (t.cy * t.cols + target)) (← readCell (i64 source))
      else
        writeCell (i64 (t.cy * t.cols + target)) (htkTermBlank t)) s := by
  have screen := inside.toScreen
  have cell := screen.cell inside.above inside.below left right
  rw [cell.2.2, Safe, ends_ite]
  constructor
  · intro moves
    have source := from_ moves
    rw [ends_bind]
    apply (readCell_draws screen redrawn source.1 source.2).mono
    intro _ s redrawn
    exact writeCell_draws screen redrawn _ cell.1 cell.2.1
  · intro _
    exact writeCell_draws screen redrawn _ cell.1 cell.2.1

theorem deleteChars_draws {n : Int} (low : -9223372036854775808 ≤ n)
    (deletes : DeletesInside t n) : Safe (fun _ => Redrawn t) (deleteChars n) t := by
  have screen := inside.toScreen
  have left := inside.left
  unfold deleteChars
  rw [Safe, ends_bind, ends_get]
  apply ends_forUp screen.redrawn
  intro i s start stop redrawn
  apply moveCell_draws inside redrawn
  · omega
  · omega
  intro moved
  obtain ⟨k, column, _, _⟩ := i64_spec (i + n)
  obtain ⟨k', source, _, _⟩ := i64_spec (t.cy * t.cols + i + n)
  have cell := screen.cell inside.above inside.below (show 0 ≤ i by omega)
    (show i < t.cols by omega)
  have row := screen.row_low inside.above
  have end_ : (t.cy + 1) * t.cols ≤ t.rows * t.cols := screen.row_le inside.below
  rw [Int.add_mul] at end_
  have small := screen.small
  rcases deletes with behind | ⟨first, last⟩
  · omega
  · constructor
    · omega
    · omega

theorem insertBlanks_draws {n : Int} (low : -9223372036854775808 ≤ n)
    (high : n < 9223372036854775808) (inserts : InsertsInside t n) :
    Safe (fun _ => Redrawn t) (insertBlanks n) t := by
  have screen := inside.toScreen
  have left := inside.left
  unfold insertBlanks
  rw [Safe, ends_bind, ends_get]
  apply ends_forDown screen.redrawn
  intro i s start stop redrawn
  apply moveCell_draws inside redrawn
  · omega
  · omega
  intro moved
  obtain ⟨k, column, _, _⟩ := i64_spec (i - n)
  obtain ⟨k', source, _, _⟩ := i64_spec (t.cy * t.cols + i - n)
  have row := screen.row_low inside.above
  have end_ : (t.cy + 1) * t.cols ≤ t.rows * t.cols := screen.row_le inside.below
  rw [Int.add_mul] at end_
  have small := screen.small
  have bounds := screen.words_small
  rcases inserts with behind | last | wraps
  · omega
  · rw [Int.sub_mul] at last
    constructor
    · omega
    · omega
  · omega

end Controls

theorem clampCursor_inBounds {t : CHtkTerm} (screen : Screen t) : InBounds (clampCursor t) := by
  have wide := screen.wide
  have tall := screen.tall
  refine { screen with left := ?_, right := ?_, above := ?_, below := ?_ }
  all_goals
    unfold clampCursor
    dsimp only
    split
    · omega
    · split <;> omega

theorem regionOf_valid (tall : 1 ≤ rows) (top bottom : Int) :
    0 ≤ (regionOf rows top bottom).1 ∧
      (regionOf rows top bottom).1 ≤ (regionOf rows top bottom).2 ∧
      (regionOf rows top bottom).2 < rows := by
  unfold regionOf
  dsimp only
  generalize isLow : (if top < 0 then 0 else top) = low
  generalize isHigh : (if bottom ≥ rows then rows - 1 else bottom) = high
  have lowest : 0 ≤ low := by
    rw [← isLow]
    split <;> omega
  have highest : high < rows := by
    rw [← isHigh]
    split <;> omega
  split
  · dsimp only
    omega
  · dsimp only
    omega

theorem setRegion_screen {t : CHtkTerm} (screen : Screen t) :
    Safe (fun _ => Screen) setRegion t := by
  have region := regionOf_valid screen.tall (i64 (htkTermParam t 0 1 - 1))
    (i64 (htkTermParam t 1 t.rows - 1))
  unfold setRegion
  rw [Safe, ends_modify]
  exact { screen with top := region.1, region := region.2.1, bottom := region.2.2 }

theorem sgr_screen {t : CHtkTerm} (screen : Screen t) : Safe (fun _ => Screen) htkTermSgr t := by
  have nparams := screen.nparams
  unfold htkTermSgr
  rw [Safe, ends_modify]
  refine { screen with nparams := ?_ }
  dsimp only
  split
  · decide
  · exact nparams

/-- What the final byte of CSI needs: moving characters along the row must not lead
off the screen. -/
def FinalSteady (t : CHtkTerm) (final : Char) : Prop :=
  (final = 'P' → DeletesInside t (htkTermParam t 0 1)) ∧
    (final = '@' → InsertsInside t (htkTermParam t 0 1))

instance (t : CHtkTerm) (final : Char) : Decidable (FinalSteady t final) :=
  inferInstanceAs (Decidable (_ ∧ _))

theorem csiSwitch_screen {t : CHtkTerm} (inside : InBounds t) {final : Char}
    (steady : FinalSteady t final) :
    Safe (fun _ => Screen) (csiSwitchOver moveCells final (htkTermParam t 0 1) (htkTermParam t 1 1)) t := by
  have screen := inside.toScreen
  have param := param_word screen 0 1 (by decide) (by decide)
  have draws : ∀ {run : Term Unit}, Safe (fun _ => Redrawn t) run t →
      Safe (fun _ => Screen) run t := by
    intro run drawn
    apply drawn.mono
    intro _ s redrawn
    exact redrawn.screen screen
  have moves : ∀ {change : CHtkTerm → CHtkTerm}, Screen (change t) →
      Safe (fun _ => Screen) (modify change) t := by
    intro change kept
    rw [Safe, ends_modify]
    exact kept
  have opposite : -9223372036854775808 ≤ i64 (-htkTermParam t 0 1) := by
    obtain ⟨_, _, low, _⟩ := i64_spec (-htkTermParam t 0 1)
    exact low
  unfold csiSwitchOver
  split
  case h_1 => exact moves (screen.cursor _ _ _ _)
  case h_2 => exact moves (screen.cursor _ _ _ _)
  case h_3 => exact moves (screen.cursor _ _ _ _)
  case h_4 => exact moves (screen.cursor _ _ _ _)
  case h_5 => exact moves (screen.cursor _ _ _ _)
  case h_6 => exact moves (screen.cursor _ _ _ _)
  case h_7 => exact moves (screen.cursor _ _ _ _)
  case h_8 => exact moves (screen.cursor _ _ _ _)
  case h_9 =>
    rw [Safe, ends_bind, ends_get]
    exact draws (eraseDisplay_draws inside _)
  case h_10 =>
    rw [Safe, ends_bind, ends_get]
    exact draws (eraseLine_draws inside _)
  case h_11 => exact draws (scrollBelow_draws inside opposite)
  case h_12 => exact draws (scrollBelow_draws inside param.1)
  case h_13 => exact draws (deleteChars_draws inside param.1 (steady.1 rfl))
  case h_14 => exact draws (insertBlanks_draws inside param.1 param.2 (steady.2 rfl))
  case h_15 =>
    rw [Safe, ends_bind, ends_get]
    exact draws (clearRange_draws screen inside.above inside.below inside.left)
  case h_16 => exact draws (scroll_draws screen param.1)
  case h_17 => exact draws (scroll_draws screen opposite)
  case h_18 => exact setRegion_screen screen
  case h_19 => exact moves (screen.cursor _ _ _ _)
  case h_20 => exact moves (screen.cursor _ _ _ _)
  case h_21 => exact sgr_screen screen
  case h_22 => exact screen

theorem csi_inBounds {t : CHtkTerm} (inside : InBounds t) {final : Char}
    (steady : ¬t.isPrivate → FinalSteady t final) :
    Safe (fun _ => InBounds) (htkTermCsi final) t := by
  unfold htkTermCsi htkTermCsiOver
  rw [Safe, ends_bind, ends_get, ends_ite]
  constructor
  · intro _
    rw [ends_ite]
    constructor
    · intro _
      exact { inside with }
    · intro _
      exact inside
  · intro isPublic
    rw [ends_bind]
    apply (csiSwitch_screen inside (steady isPublic)).mono
    intro _ s screen
    rw [ends_modify]
    exact clampCursor_inBounds screen

/-! ## The parser -/

def SavedInside (t : CHtkTerm) : Prop :=
  0 ≤ t.savedX ∧ t.savedX ≤ t.cols ∧ 0 ≤ t.savedY ∧ t.savedY < t.rows

instance (t : CHtkTerm) : Decidable (SavedInside t) := inferInstanceAs (Decidable (_ ∧ _))

theorem words_set {params : List Int} {i : Nat} {q : Int}
    (words : ∀ p ∈ params, -9223372036854775808 ≤ p ∧ p < 9223372036854775808)
    (word : -9223372036854775808 ≤ q ∧ q < 9223372036854775808) :
    ∀ p ∈ params.set i q, -9223372036854775808 ≤ p ∧ p < 9223372036854775808 := by
  intro p member
  cases List.mem_or_eq_of_mem_set member with
  | inl old => exact words p old
  | inr new =>
    rw [new]
    exact word

theorem InBounds.move {t : CHtkTerm} (inside : InBounds t) {cx cy : Int} (left : 0 ≤ cx)
    (right : cx ≤ t.cols) (above : 0 ≤ cy) (below : cy < t.rows) :
    InBounds { t with cx := cx, cy := cy } :=
  { inside with left := left, right := right, above := above, below := below }

theorem InBounds.parse {t : CHtkTerm} (inside : InBounds t) (state : Parser) :
    InBounds { t with state := state } := { inside with }

theorem InBounds.collect {t : CHtkTerm} (inside : InBounds t) {utf8 : List UInt8} {utf8Len : Nat}
    (length : utf8.length = 8) (pending : utf8Len < 4) :
    InBounds { t with utf8 := utf8, utf8Len := utf8Len } :=
  { inside with utf8Len := pending, utf8 := length }

theorem escByte_inBounds {t : CHtkTerm} (inside : InBounds t)
    (steady : byte = '8'.toUInt8 → SavedInside t) : Safe (fun _ => InBounds) (escByte byte) t := by
  have above := inside.above
  have below := inside.below
  have wide := inside.wide
  have tall := inside.tall
  have screen := inside.toScreen
  unfold escByte
  rw [Safe, ends_bind, ends_get, ends_ite]
  constructor
  · intro _
    exact { inside with
      nparams := Nat.zero_le _
      params := (List.length_set ..).trans screen.params
      words := words_set (q := 0) screen.words (by decide) }
  intro _
  rw [ends_ite]
  constructor
  · intro _
    exact { inside with }
  intro _
  rw [ends_ite]
  constructor
  · intro _
    exact { inside with }
  intro _
  rw [ends_ite]
  constructor
  · intro restore
    obtain ⟨left, right, above, below⟩ := steady restore
    exact inside.move left right above below
  intro _
  rw [ends_ite]
  constructor
  · intro _
    rw [ends_ite]
    constructor
    · intro _
      apply (scroll_draws screen (by decide)).mono
      intro _ s redrawn
      exact redrawn.inBounds inside
    · intro _
      rw [ends_ite]
      constructor
      · intro up
        exact inside.move inside.left inside.right (by omega) (by omega)
      · intro _
        exact inside
  intro _
  rw [ends_ite]
  constructor
  · intro _
    apply (newline_inBounds inside).mono
    intro _ s ended
    exact ended.1
  intro _
  rw [ends_ite]
  constructor
  · intro _
    rw [ends_bind, ends_set]
    apply (newline_inBounds (inside.move (Int.le_refl 0) (by omega) above below)).mono
    intro _ s ended
    exact ended.1
  intro _
  rw [ends_ite]
  constructor
  · intro _
    rw [ends_bind]
    apply (clearRows_rows screen (Int.le_refl _) (by omega) (by omega)).mono
    intro _ s redrawn
    have kept := redrawn.inBounds inside
    have wide' := kept.wide
    have tall' := kept.tall
    rw [ends_modify]
    exact kept.move (Int.le_refl _) (by omega) (Int.le_refl _) (by omega)
  intro _
  rw [ends_ite]
  constructor
  · intro _
    exact { inside with }
  · intro _
    exact inside

theorem csiDigit_inBounds {t : CHtkTerm} (inside : InBounds t) (byte : UInt8) :
    InBounds (csiDigit byte t) := by
  have screen := inside.toScreen
  have nparams := screen.nparams
  obtain ⟨_, _, low, high⟩ := i64_spec (t.params.getD
    ((if t.nparams = 0 then 1 else t.nparams) - 1) 0 * 10 + byte.toNat - 48)
  refine { inside with
    nparams := ?_
    params := (List.length_set ..).trans screen.params
    words := words_set screen.words ⟨low, high⟩ }
  show (if t.nparams = 0 then 1 else t.nparams) ≤ htkTermParams
  split
  · decide
  · exact nparams

theorem csiSeparator_inBounds {t : CHtkTerm} (inside : InBounds t) :
    InBounds (csiSeparator t) := by
  have screen := inside.toScreen
  have nparams := screen.nparams
  have one : 1 ≤ htkTermParams := by decide
  unfold csiSeparator
  dsimp only
  generalize isCount : (if t.nparams = 0 then 1 else t.nparams) = n
  have count : n ≤ htkTermParams := by
    rw [← isCount]
    split <;> omega
  split
  next room =>
    exact { inside with
      nparams := room
      params := (List.length_set ..).trans screen.params
      words := words_set (q := 0) screen.words (by decide) }
  · exact { inside with nparams := count }

theorem putDecoded_inBounds {t : CHtkTerm} (inside : InBounds t) (decoded : Option (Nat × Nat)) :
    Safe (fun _ => InBounds) (putDecoded decoded) t := by
  cases decoded with
  | none => exact inside
  | some decoded => exact put_inBounds inside _

theorem utf8Need_le (lead : UInt8) : utf8Need lead ≤ 4 := by
  unfold utf8Need
  split
  · decide
  · split <;> decide

theorem utf8Byte_inBounds {t : CHtkTerm} (inside : InBounds t) (byte : UInt8) :
    Safe (fun _ => InBounds) (utf8Byte byte) t := by
  have screen := inside.toScreen
  have length : (t.utf8.set t.utf8Len byte).length = 8 := (List.length_set ..).trans screen.utf8
  unfold utf8Byte
  rw [Safe, ends_bind, ends_get, ends_ite]
  constructor
  · intro _
    rw [ends_bind, ends_set]
    exact putDecoded_inBounds (inside.collect length (by decide)) _
  · intro pending
    have need := utf8Need_le ((t.utf8.set t.utf8Len byte).getD 0 0)
    exact inside.collect length (by omega)

theorem plainByte_inBounds {t : CHtkTerm} (inside : InBounds t) (byte : UInt8) :
    Safe (fun _ => InBounds) (plainByte byte) t := by
  have screen := inside.toScreen
  have wide := screen.wide
  have left := inside.left
  have right := inside.right
  have above := inside.above
  have below := inside.below
  unfold plainByte
  rw [Safe, ends_bind, ends_get, ends_ite]
  constructor
  · intro _
    exact inside.collect ((List.length_set ..).trans screen.utf8) (by decide)
  intro _
  rw [ends_ite]
  constructor
  · intro _
    exact { inside with }
  intro _
  rw [ends_ite]
  constructor
  · intro _
    apply (newline_inBounds inside).mono
    intro _ s ended
    exact ended.1
  intro _
  rw [ends_ite]
  constructor
  · intro _
    exact inside.move (Int.le_refl 0) (by omega) above below
  intro _
  rw [ends_ite]
  constructor
  · intro _
    rw [ends_ite]
    constructor
    · intro _
      exact inside.move (show 0 ≤ t.cx - 1 by omega) (by omega) above below
    · intro _
      exact inside
  intro _
  rw [ends_ite]
  constructor
  · intro _
    rw [ends_set]
    apply inside.move _ _ above below
    · split <;> omega
    · split <;> omega
  intro _
  rw [ends_ite]
  constructor
  · intro _
    exact put_inBounds inside _
  · intro _
    exact inside

theorem textByte_inBounds {t : CHtkTerm} (inside : InBounds t) (byte : UInt8) :
    Safe (fun _ => InBounds) (textByte byte) t := by
  unfold textByte
  rw [Safe, ends_bind, ends_get, ends_ite]
  constructor
  · intro _
    rw [ends_ite]
    constructor
    · intro _
      exact utf8Byte_inBounds inside byte
    · intro _
      rw [ends_bind, ends_modify]
      exact plainByte_inBounds (inside.collect inside.utf8 (by decide)) byte
  · intro _
    exact plainByte_inBounds inside byte

/-! ## Steps and runs -/

/-- The bytes that keep the terminal on its screen: `ESC 8` restores a cursor that is
still on it, no control byte stands inside a CSI sequence, and no count of characters
to delete or insert leads off it. -/
def ByteSteady (t : CHtkTerm) (byte : UInt8) : Prop :=
  match t.state with
  | .esc => byte = '8'.toUInt8 → SavedInside t
  | .csi => 0x20 ≤ byte ∧ (¬t.isPrivate → FinalSteady t (Char.ofUInt8 byte))
  | _ => True

instance (t : CHtkTerm) (byte : UInt8) : Decidable (ByteSteady t byte) := by
  delta ByteSteady
  cases t.state <;> infer_instance

theorem byte_inBounds {t : CHtkTerm} (inside : InBounds t) (stack : Nat)
    (steady : ByteSteady t byte) : Safe (fun _ => InBounds) (htkTermByte byte (stack + 1)) t := by
  unfold htkTermByte
  rw [Safe, ends_bind, ends_get]
  unfold ByteSteady at steady
  cases isState : t.state with
  | text => exact textByte_inBounds inside byte
  | esc =>
    rw [isState] at steady
    dsimp only
    rw [ends_bind, ends_set]
    exact escByte_inBounds (inside.parse .text) steady
  | skip => exact { inside with }
  | osc => exact { inside with }
  | csi =>
    rw [isState] at steady
    obtain ⟨printable, final⟩ := steady
    dsimp only
    rw [ends_ite]
    constructor
    · intro _
      exact csiDigit_inBounds inside byte
    intro _
    rw [ends_ite]
    constructor
    · intro _
      exact csiSeparator_inBounds inside
    intro _
    rw [ends_ite]
    constructor
    · intro _
      exact { inside with }
    intro _
    rw [ends_ite]
    constructor
    · intro _
      rw [ends_bind, ends_set]
      exact csi_inBounds (inside.parse .text) final
    intro _
    rw [ends_ite]
    constructor
    · intro control
      exact absurd control (UInt8.not_lt.mpr printable)
    · intro _
      exact inside

/-- A control byte inside a CSI sequence: `HtkTermByte` calls itself with the same byte
in the same state, whatever the stack. -/
theorem control_endless {t : CHtkTerm} (isCsi : t.state = .csi) (control : byte < 0x20)
    (stack : Nat) : htkTermByte byte stack t = .error .stack := by
  induction stack with
  | zero => rfl
  | succ stack ih =>
    have ends : Ends (fun fault => fault = .stack) (fun _ _ => False)
        (htkTermByte byte (stack + 1)) t := by
      have small : byte.toNat < 32 := UInt8.lt_iff_toNat_lt.mp control
      have notDigit : ¬('0'.toUInt8 ≤ byte ∧ byte ≤ '9'.toUInt8) := by
        intro digit
        have low : 48 ≤ byte.toNat := UInt8.le_iff_toNat_le.mp digit.1
        omega
      have notChar : ∀ ch : UInt8, 32 ≤ ch.toNat → byte ≠ ch := by
        intro ch large same
        rw [same] at small
        omega
      have notFinal : ¬(0x40 ≤ byte ∧ byte ≤ 0x7E) := by
        intro final
        have low : 64 ≤ byte.toNat := UInt8.le_iff_toNat_le.mp final.1
        omega
      unfold htkTermByte
      rw [ends_bind, ends_get]
      simp only [isCsi]
      rw [if_neg notDigit, if_neg (notChar _ (by decide)), if_neg, if_neg notFinal,
        if_pos control, Ends, ih]
      intro sign
      rcases sign with same | same | same | same
      all_goals exact notChar _ (by decide) same
    cases ended : htkTermByte byte (stack + 1) t with
    | ok result => exact absurd (ends.result ended) not_false
    | error fault => rw [show fault = .stack from ends.error ended]

def Steady (t : CHtkTerm) : Event → Prop
  | .byte byte => ByteSteady t byte
  | .resize granted cols rows => granted = true → SizeFits cols rows

instance (t : CHtkTerm) (event : Event) : Decidable (Steady t event) := by
  cases event
  · exact inferInstanceAs (Decidable (ByteSteady ..))
  · exact inferInstanceAs (Decidable (_ → _))

theorem step_inBounds {t : CHtkTerm} (inside : InBounds t) {event : Event} (stack : Nat)
    (steady : Steady t event) : ∃ t', step (stack + 1) t event = .ok t' ∧ InBounds t' := by
  cases event with
  | byte byte =>
    obtain ⟨_, t', ended, kept⟩ := (byte_inBounds inside stack steady).ok
    exact ⟨t', by simp only [step, ended], kept⟩
  | resize granted cols rows =>
    obtain ⟨_, t', ended, kept⟩ := (resize_inBounds steady (.inl inside)).ok
    exact ⟨t', by simp only [step, ended], kept⟩

theorem new_inBounds (fits : SizeFits cols rows) :
    ∃ t, htkTerminalNew cols rows = .ok t ∧ InBounds t := by
  obtain ⟨_, t, ended, inside⟩ :=
    (resize_inBounds (fun _ : true = true => fits) (.inr ⟨rfl, rfl⟩)).ok
  exact ⟨t, by simp only [htkTerminalNew, ended], inside⟩

/-- Every step of the run from `t` is steady in the state it starts from. -/
def AllSteady (stack : Nat) : CHtkTerm → List Event → Prop
  | _, [] => True
  | t, event :: events =>
    Steady t event ∧
      match step stack t event with
      | .ok t' => AllSteady stack t' events
      | .error _ => True

instance AllSteady.decidable (stack : Nat) : ∀ (t : CHtkTerm) (events : List Event),
    Decidable (AllSteady stack t events)
  | _, [] => .isTrue trivial
  | t, event :: events => by
    unfold AllSteady
    cases step stack t event with
    | ok t' =>
      have later := AllSteady.decidable stack t' events
      infer_instance
    | error _ => infer_instance

theorem run_inBounds {stack : Nat} {t : CHtkTerm} {events : List Event} (inside : InBounds t)
    (steady : AllSteady (stack + 1) t events) :
    ∀ before, before <+: events → ∃ t', run (stack + 1) t before = .ok t' ∧ InBounds t' := by
  induction events generalizing t with
  | nil =>
    intro before isPrefix
    rw [List.prefix_nil.mp isPrefix]
    exact ⟨t, rfl, inside⟩
  | cons event events ih =>
    intro before isPrefix
    obtain ⟨now, later⟩ := steady
    obtain ⟨t', ended, inside'⟩ := step_inBounds inside stack now
    rw [ended] at later
    cases before with
    | nil => exact ⟨t, rfl, inside⟩
    | cons first rest =>
      obtain ⟨rfl, restPrefix⟩ := List.cons_prefix_cons.mp isPrefix
      have ends := ih inside' later rest restPrefix
      simp only [run, ended]
      exact ends

/-- From a new terminal, a run of steady bytes and resizes reaches no cell outside the
screen, and every state it reaches is in bounds. -/
theorem htkTerm_inBounds (stack : Nat) (cols rows : Int) (events : List Event)
    (fits : SizeFits cols rows)
    (steady : ∀ t, htkTerminalNew cols rows = .ok t → AllSteady (stack + 1) t events) :
    ∃ t, htkTerminalNew cols rows = .ok t ∧ InBounds t ∧
      ∀ before, before <+: events → ∃ t', run (stack + 1) t before = .ok t' ∧ InBounds t' := by
  obtain ⟨t, isNew, inside⟩ := new_inBounds fits
  exact ⟨t, isNew, inside, run_inBounds inside (steady t isNew)⟩

/-- Text, a saved cursor that is restored on the same screen, and a resize. -/
def quietRun : List Event :=
  [.byte 0x61, .byte 0x1B, .byte '7'.toUInt8, .byte 0x1B, .byte '8'.toUInt8, .resize true 4 1]

theorem htkTerm_inBounds_quiet : ∃ t, htkTerminalNew 4 3 = .ok t ∧ InBounds t ∧
    ∀ before, before <+: quietRun → ∃ t', run 1 t before = .ok t' ∧ InBounds t' := by
  apply htkTerm_inBounds 0 4 3 quietRun (by decide)
  intro t isNew
  cases isNew
  decide +kernel

/-- The cursor is saved in the last row, the screen shrinks to one row, the cursor is
restored, and a letter is written. -/
def shrunkRun : List Event :=
  [.byte 10, .byte 10, .byte 0x1B, .byte '7'.toUInt8, .resize true 4 1, .byte 0x1B,
    .byte '8'.toUInt8, .byte 'x'.toUInt8]

theorem restored_cursor_leaves_screen : ¬∀ (stack : Nat) (cols rows : Int) (events : List Event),
    ∃ t, htkTerminalNew cols rows = .ok t ∧
      ∃ t', run (stack + 1) t events = .ok t' ∧ InBounds t' := by
  intro always
  obtain ⟨t, isNew, t', ended, _⟩ := always 0 4 3 shrunkRun
  have start : htkTerminalNew 4 3 = .ok t → run 1 t shrunkRun = .error (.outside 8) := by
    intro isNew
    cases isNew
    decide +kernel
  rw [start isNew] at ended
  cases ended

end Aholyc.Htk
