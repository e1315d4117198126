import Aholyc.Htk.Bounds
import Aholyc.Lib.Grid

/-!
# Scrolling

`HtkTermScroll` and the control functions over it, with `MemCpy` as a parameter:
by its contract the result is the copied block where the two ranges do not
overlap, and anything where they do. What is scrolled are the rows of a region.
-/

namespace Aholyc.Htk

open Aholyc.Lib.Hoare Aholyc.Lib.Grid

/-! ## The contract of MemCpy -/

def Apart (target source bytes : Int) : Prop :=
  bytes = 0 ∨ i64 (target * 8) + bytes ≤ i64 (source * 8) ∨
    i64 (source * 8) + bytes ≤ i64 (target * 8)

instance (target source bytes : Int) : Decidable (Apart target source bytes) :=
  inferInstanceAs (Decidable (_ ∨ _))

/-- A `MemCpy` that copies ranges that are apart; nothing is known of others. -/
def KeepsContract (memCpy : Copy) : Prop :=
  ∀ target source bytes t, Apart target source bytes →
    memCpy target source bytes t = moveCells target source bytes t

/-- A `MemCpy` that stops the program where the contract leaves the result undefined. -/
def strictCpy : Copy := fun target source bytes =>
  if Apart target source bytes then moveCells target source bytes else throw (.outside target)

theorem strictCpy_contract : KeepsContract strictCpy := by
  intro target source bytes t apart
  unfold strictCpy
  rw [if_pos apart]

/-! ## What scrolling should do -/

def screenRows (t : CHtkTerm) : List (List UInt64) :=
  rowsOf t.cols.toNat t.rows.toNat (t.cells.getD [])

def blankRow (t : CHtkTerm) : List UInt64 := List.replicate t.cols.toNat (htkTermBlank t)

/-- The rows of the screen with those from `first` to the end of the region scrolled. -/
def scrolledRows (t : CHtkTerm) (first lines : Int) : List (List UInt64) :=
  onRegion first.toNat (t.bottom - first + 1).toNat
    (if lines > 0 then shiftUp (blankRow t) lines.natAbs else shiftDown (blankRow t) lines.natAbs)
    (screenRows t)

/-- The region has no more rows than twice the count, so that the rows that stay do not
overlap the place they go to; the least word has no opposite. -/
def Roomy (first bottom lines : Int) : Prop :=
  lines = 0 ∨ lines ≠ -9223372036854775808 ∧ bottom - first + 1 ≤ 2 * lines.natAbs

instance (first bottom lines : Int) : Decidable (Roomy first bottom lines) :=
  inferInstanceAs (Decidable (_ ∨ _))

abbrev Leaves (run : Term Unit) (t t' : CHtkTerm) : Prop := run t = .ok ((), t')

theorem leaves_iff {run : Term Unit} {t t' : CHtkTerm} :
    Ends (fun _ => False) (fun _ s => s = t') run t ↔ Leaves run t t' := by
  constructor
  · intro ends
    obtain ⟨_, s, ended, isEnd⟩ := ends.ok
    rw [Leaves, ended, isEnd]
  · intro leaves
    unfold Ends
    rw [leaves]

theorem Leaves.then {first second : Term Unit} {t t' t'' : CHtkTerm} (leaves : Leaves first t t')
    (leaves' : Leaves second t' t'') : Leaves (first >>= fun _ => second) t t'' := by
  rw [← leaves_iff, ends_bind]
  apply (leaves_iff.mpr leaves).mono
  rintro _ s rfl
  exact leaves_iff.mpr leaves'

/-! ## Cells -/

structure Rows (t : CHtkTerm) (rows : List (List UInt64)) : Prop where
  block : t.cells = some rows.flatten
  uniform : Uniform t.cols.toNat rows
  height : rows.length = t.rows.toNat

theorem Rows.screenRows {t : CHtkTerm} {rows : List (List UInt64)} (isRows : Rows t rows) :
    screenRows t = rows := by
  unfold Htk.screenRows
  rw [isRows.block, Option.getD_some, ← isRows.height, rowsOf_flatten isRows.uniform]

theorem Screen.isRows {t : CHtkTerm} (screen : Screen t) : Rows t (screenRows t) := by
  obtain ⟨cells, isBlock, size⟩ := screen.block
  have wide := screen.wide
  have tall := screen.tall
  have isSize : cells.length = t.rows.toNat * t.cols.toNat := by
    have product : ((t.rows.toNat * t.cols.toNat : Nat) : Int) = t.rows * t.cols := by
      rw [Int.natCast_mul, Int.toNat_of_nonneg (by omega), Int.toNat_of_nonneg (by omega)]
    omega
  obtain ⟨flat, height, uniform⟩ := rowsOf_spec isSize
  unfold Htk.screenRows
  rw [isBlock, Option.getD_some]
  exact ⟨by rw [flat, isBlock], uniform, height⟩

theorem Rows.length {t : CHtkTerm} {rows : List (List UInt64)} (isRows : Rows t rows) :
    rows.flatten.length = t.rows.toNat * t.cols.toNat := by
  rw [List.length_flatten, List.map_eq_replicate_iff.mpr isRows.uniform, List.sum_replicate_nat,
    isRows.height]

theorem Rows.screen {t : CHtkTerm} {rows rows' : List (List UInt64)} (isRows : Rows t rows)
    (screen : Screen t) (isRows' : Rows { t with cells := some rows'.flatten } rows') :
    Screen { t with cells := some rows'.flatten } := by
  have redrawn : Redrawn t { t with cells := some rows'.flatten } :=
    ⟨rows.flatten, rows'.flatten, isRows.block, isRows'.length.trans isRows.length.symm, rfl⟩
  exact redrawn.screen screen

variable {a b h count : Nat}

theorem moveCells_blit {t : CHtkTerm} {cells : List UInt64} (isBlock : t.cells = some cells)
    {target source bytes : Int} (isTarget : i64 (target * 8) = a * 8)
    (isSource : i64 (source * 8) = b * 8) (isBytes : bytes = h * 8) (high : a + h ≤ cells.length)
    (high' : b + h ≤ cells.length) :
    Leaves (moveCells target source bytes) t { t with cells := some (blit cells a b h) } := by
  have inside : 0 ≤ i64 (target * 8) ∧ 0 ≤ i64 (source * 8) ∧ 0 ≤ bytes ∧
      i64 (target * 8) + bytes ≤ cells.length * 8 ∧
      i64 (source * 8) + bytes ≤ cells.length * 8 := by
    omega
  have isCopy : copyCells cells cells target source bytes = .ok (blit cells a b h) := by
    unfold copyCells
    dsimp only
    rw [if_pos inside, isTarget, isSource, isBytes,
      show ((a : Int) * 8 / 8).toNat = a by omega, show ((b : Int) * 8 / 8).toNat = b by omega,
      show ((h : Int) * 8 / 8).toNat = h by omega,
      show (((a : Int) * 8 + h * 8) / 8).toNat = a + h by omega]
    rfl
  rw [← leaves_iff]
  unfold moveCells
  rw [ends_bind, ends_get]
  simp only [isBlock, isCopy]
  rfl

theorem fillCells {t : CHtkTerm} {cells : List UInt64} (isBlock : t.cells = some cells)
    {start : Int} {first : Nat} (isStart : start = first) (x : UInt64)
    (high : first + count ≤ cells.length) :
    Leaves (forUp (fun i => writeCell i x) start count) t
      { t with cells := some (fill cells first count x) } := by
  induction count generalizing t cells start first with
  | zero =>
    have same : fill cells first 0 x = cells := by
      unfold fill
      rw [List.replicate_zero, List.append_nil, Nat.add_zero, List.take_append_drop]
    rw [same, ← isBlock]
    rfl
  | succ count ih =>
    have less : first < cells.length := by omega
    have written : Leaves (writeCell start x) t
        { t with cells := some (cells.set first x) } := by
      rw [← leaves_iff]
      unfold writeCell
      rw [ends_bind, ends_get]
      simp only [isBlock]
      rw [if_pos (by omega), isStart, Int.toNat_natCast]
      rfl
    have later := @ih { t with cells := some (cells.set first x) } _ rfl (start + 1) (first + 1)
      (by omega) (by rw [List.length_set]; omega)
    rw [fill_set less] at later
    exact written.then later

section Region

variable {t : CHtkTerm} (screen : Screen t) {rows : List (List UInt64)} (isRows : Rows t rows)

include screen

theorem Screen.cells_of_rows (k : Nat) : (k : Int) * t.cols = (k * t.cols.toNat : Nat) := by
  have wide := screen.wide
  rw [Int.natCast_mul, Int.toNat_of_nonneg (by omega)]

/-- Ranges of whole rows are apart when their rows are. -/
theorem apart_rows {a b h : Int} (low : 0 ≤ a) (low' : 0 ≤ b) (count : 0 ≤ h)
    (high : a ≤ t.rows) (high' : b ≤ t.rows) (le : h ≤ t.rows) :
    Apart (i64 (a * t.cols)) (i64 (b * t.cols)) (i64 (h * t.cols * 8)) ↔
      h = 0 ∨ a + h ≤ b ∨ b + h ≤ a := by
  have wide := screen.wide
  have small := screen.small
  have size := screen.row_low count
  have fits := screen.row_le le
  have isNothing : h * t.cols = 0 ↔ h = 0 := by
    rw [Int.mul_eq_zero]
    omega
  have before (a b : Int) : a * t.cols + h * t.cols ≤ b * t.cols ↔ a + h ≤ b := by
    rw [← Int.add_mul]
    exact Int.mul_le_mul_right (by omega)
  unfold Apart
  rw [screen.row_address low high, screen.row_address low' high',
    i64_of_word (x := h * t.cols * 8) (by omega) (by omega), ← isNothing, ← before a b,
    ← before b a]
  omega

include isRows

theorem moveRows_blit (high : a + h ≤ rows.length) (high' : b + h ≤ rows.length) :
    Leaves (moveCells (i64 (a * t.cols)) (i64 (b * t.cols)) (i64 (h * t.cols * 8))) t
      { t with cells := some (blit rows a b h).flatten } := by
  have tall := screen.tall
  have small := screen.small
  have height := isRows.height
  have size := screen.row_low (show 0 ≤ (h : Int) by omega)
  have fits : (h : Int) * t.cols ≤ t.rows * t.cols := screen.row_le (by omega)
  have inside := Nat.mul_le_mul_right t.cols.toNat high
  have inside' := Nat.mul_le_mul_right t.cols.toNat high'
  rw [Nat.add_mul, height, ← isRows.length] at inside inside'
  rw [← blit_flatten isRows.uniform]
  apply moveCells_blit isRows.block
  · rw [screen.row_address (by omega) (by omega), screen.cells_of_rows]
  · rw [screen.row_address (by omega) (by omega), screen.cells_of_rows]
  · rw [i64_of_word (by omega) (by omega), screen.cells_of_rows]
  · exact inside
  · exact inside'

theorem clearRows_fill {first last : Int} {f k : Nat} (isFirst : first = f)
    (isLast : last + 1 = (f + k : Nat)) (high : f + k ≤ rows.length) :
    Leaves (htkTermClearRows first last) t
      { t with cells := some (fill rows f k (blankRow t)).flatten } := by
  have tall := screen.tall
  have small := screen.small
  have height := isRows.height
  have size := screen.row_low (show 0 ≤ (f : Int) by omega)
  have order : (f : Int) * t.cols ≤ (f + k : Nat) * t.cols := screen.row_le (by omega)
  have fits : ((f + k : Nat) : Int) * t.cols ≤ t.rows * t.cols := screen.row_le (by omega)
  have inside := Nat.mul_le_mul_right t.cols.toNat high
  rw [Nat.add_mul, height, ← isRows.length] at inside
  have start : i64 (first * t.cols) = (f * t.cols.toNat : Nat) := by
    rw [isFirst, i64_of_word (by omega) (by omega), screen.cells_of_rows]
  have stop : i64 ((last + 1) * t.cols) = (f * t.cols.toNat + k * t.cols.toNat : Nat) := by
    rw [isLast, i64_of_word (by omega) (by omega), screen.cells_of_rows, Nat.add_mul]
  have isCount : (i64 ((last + 1) * t.cols) - i64 (first * t.cols)).toNat =
      k * t.cols.toNat := by
    omega
  have filled := fillCells isRows.block start (htkTermBlank t) inside
  rw [fill_flatten isRows.uniform, ← isCount] at filled
  rw [← leaves_iff]
  unfold htkTermClearRows
  rw [ends_bind, ends_get]
  exact leaves_iff.mpr filled

end Region

/-! ## The region -/

variable {memCpy : Copy}

section Scroll

variable {t : CHtkTerm} (screen : Screen t) {rows : List (List UInt64)} (isRows : Rows t rows)

def withRows (t : CHtkTerm) (rows : List (List UInt64)) : CHtkTerm :=
  { t with cells := some rows.flatten }

include isRows in
theorem Rows.withRows {rows' : List (List UInt64)} (uniform : Uniform t.cols.toNat rows')
    (length : rows'.length = rows.length) : Rows (withRows t rows') rows' :=
  ⟨rfl, uniform, length.trans isRows.height⟩

include screen isRows

/-- Rows are copied inside the screen and then some are cleared. -/
theorem copyClear_leaves (keeps : KeepsContract memCpy) {f k : Nat}
    {target source bytes first last : Int} (isTarget : target = i64 (a * t.cols))
    (isSource : source = i64 (b * t.cols)) (isBytes : bytes = i64 (h * t.cols * 8))
    (isFirst : first = f) (isLast : last + 1 = (f + k : Nat)) (high : a + h ≤ rows.length)
    (high' : b + h ≤ rows.length) (high'' : f + k ≤ rows.length)
    (apart : h = 0 ∨ a + h ≤ b ∨ b + h ≤ a) :
    Leaves (do memCpy target source bytes; htkTermClearRows first last) t
      (withRows t (fill (blit rows a b h) f k (blankRow t))) := by
  have tall := screen.tall
  have height := isRows.height
  have isApart : Apart target source bytes := by
    rw [isTarget, isSource, isBytes, apart_rows screen (by omega) (by omega) (by omega) (by omega)
      (by omega) (by omega)]
    omega
  have copied := moveRows_blit screen isRows high high'
  rw [← isTarget, ← isSource, ← isBytes] at copied
  have isCopied : Rows (withRows t (blit rows a b h)) (blit rows a b h) :=
    isRows.withRows (isRows.uniform.blit a b h) (length_blit high high')
  have cleared := clearRows_fill (isRows.screen screen isCopied) isCopied isFirst isLast
    (by rw [length_blit high high']; exact high'')
  have called : Leaves (memCpy target source bytes) t (withRows t (blit rows a b h)) :=
    (keeps target source bytes t isApart).trans copied
  exact called.then cleared

theorem scrollUpOver (keeps : KeepsContract memCpy) (le : count ≤ t.bottom - t.top + 1)
    (roomy : t.bottom - t.top + 1 ≤ 2 * count) :
    Leaves (do
      memCpy (i64 (t.top * t.cols)) (i64 ((t.top + count) * t.cols))
        (i64 ((t.bottom - t.top + 1 - count) * t.cols * 8))
      htkTermClearRows (i64 (t.bottom - count + 1)) t.bottom) t
      (withRows t (onRegion t.top.toNat (t.bottom - t.top + 1).toNat
        (shiftUp (blankRow t) count) rows)) := by
  have top := screen.top
  have region := screen.region
  have bottom := screen.bottom
  have height := isRows.height
  have bounds := screen.words_small
  obtain ⟨a, isTop⟩ := Int.eq_ofNat_of_zero_le top
  obtain ⟨n, isHeight⟩ := Int.eq_ofNat_of_zero_le (show 0 ≤ t.bottom - t.top + 1 by omega)
  rw [← shiftUp_region (by omega) (by omega)]
  apply copyClear_leaves screen isRows keeps
  · rw [isTop, Int.toNat_natCast]
  · rw [isTop, Int.toNat_natCast, Int.natCast_add]
  · rw [isHeight, Int.toNat_natCast, Int.natCast_sub (by omega)]
  · rw [i64_of_word (by omega) (by omega)]
    omega
  · omega
  · omega
  · omega
  · omega
  · omega

theorem scrollDownOver (keeps : KeepsContract memCpy) (le : count ≤ t.bottom - t.top + 1)
    (roomy : t.bottom - t.top + 1 ≤ 2 * count) :
    Leaves (do
      memCpy (i64 ((t.top + count) * t.cols)) (i64 (t.top * t.cols))
        (i64 ((t.bottom - t.top + 1 - count) * t.cols * 8))
      htkTermClearRows t.top (i64 (t.top + count - 1))) t
      (withRows t (onRegion t.top.toNat (t.bottom - t.top + 1).toNat
        (shiftDown (blankRow t) count) rows)) := by
  have top := screen.top
  have region := screen.region
  have bottom := screen.bottom
  have height := isRows.height
  have bounds := screen.words_small
  obtain ⟨a, isTop⟩ := Int.eq_ofNat_of_zero_le top
  obtain ⟨n, isHeight⟩ := Int.eq_ofNat_of_zero_le (show 0 ≤ t.bottom - t.top + 1 by omega)
  rw [← shiftDown_region (by omega) (by omega)]
  apply copyClear_leaves screen isRows keeps
  · rw [isTop, Int.toNat_natCast, Int.natCast_add]
  · rw [isTop, Int.toNat_natCast]
  · rw [isHeight, Int.toNat_natCast, Int.natCast_sub (by omega)]
  · omega
  · rw [i64_of_word (by omega) (by omega)]
    omega
  · omega
  · omega
  · omega
  · omega

end Scroll

section Lines

variable {t : CHtkTerm} (screen : Screen t) {lines : Int} (low : -9223372036854775808 ≤ lines)

include screen low

/-- With a region that is small enough, every `MemCpy` scrolls its rows. -/
theorem scrollOver_leaves (keeps : KeepsContract memCpy) (roomy : Roomy t.top t.bottom lines) :
    Leaves (htkTermScrollOver memCpy lines) t (withRows t (scrolledRows t t.top lines)) := by
  have top := screen.top
  have region := screen.region
  have bottom := screen.bottom
  have tall := screen.tall
  have bounds := screen.words_small
  have isRows := screen.isRows
  have height := isRows.height
  have isHeight := i64_of_word (x := t.bottom - t.top + 1) (by omega) (by omega)
  unfold Roomy at roomy
  unfold scrolledRows
  rw [← leaves_iff]
  unfold htkTermScrollOver
  rw [ends_bind, ends_get]
  simp only [isHeight]
  by_cases up : lines > 0
  · have notDown : ¬lines < 0 := by omega
    rw [if_pos up, if_neg notDown, if_pos up, ← onRegion_shiftUp_min (by omega)]
    have isCount : (if lines > t.bottom - t.top + 1 then t.bottom - t.top + 1 else lines) =
        (min lines.natAbs (t.bottom - t.top + 1).toNat : Nat) := by
      split <;> omega
    rw [isCount]
    exact leaves_iff.mpr (scrollUpOver screen isRows keeps (by omega) (by omega))
  · rw [if_neg up, if_neg up]
    by_cases down : lines < 0
    · rw [if_pos down, if_pos down, i64_of_word (x := -lines) (by omega) (by omega),
        ← onRegion_shiftDown_min (by omega)]
      have isCount : (if -lines > t.bottom - t.top + 1 then t.bottom - t.top + 1 else -lines) =
          (min lines.natAbs (t.bottom - t.top + 1).toNat : Nat) := by
        split <;> omega
      rw [isCount]
      exact leaves_iff.mpr (scrollDownOver screen isRows keeps (by omega) (by omega))
    · have isZero : lines.natAbs = 0 := by omega
      have same : withRows t (screenRows t) = t := by
        unfold withRows
        rw [← isRows.block]
      rw [if_neg down, isZero, onRegion_shiftDown_zero, same]
      rfl

theorem scrollOver_overlaps (crowded : ¬Roomy t.top t.bottom lines) :
    ∃ fault, htkTermScrollOver strictCpy lines t = .error fault := by
  have top := screen.top
  have region := screen.region
  have bottom := screen.bottom
  have bounds := screen.words_small
  have isHeight := i64_of_word (x := t.bottom - t.top + 1) (by omega) (by omega)
  have stops {target source bytes : Int} (next : Term Unit) (overlap : ¬Apart target source bytes) :
      Ends (fun _ => True) (fun _ _ => False) (do strictCpy target source bytes; next) t := by
    unfold strictCpy
    rw [ends_bind, if_neg overlap]
    trivial
  have ends : Ends (fun _ => True) (fun _ _ => False) (htkTermScrollOver strictCpy lines) t := by
    unfold Roomy at crowded
    unfold htkTermScrollOver
    rw [ends_bind, ends_get]
    simp only [isHeight]
    by_cases up : lines > 0
    · have notDown : ¬lines < 0 := by omega
      rw [if_pos up, if_neg notDown, if_neg (by omega)]
      apply stops
      rw [apart_rows screen (by omega) (by omega) (by omega) (by omega) (by omega) (by omega)]
      omega
    · have down : lines < 0 := by omega
      rw [if_neg up, if_pos down, if_pos down]
      by_cases least : lines = -9223372036854775808
      · have stays : i64 (-lines) = -9223372036854775808 := by
          rw [least]
          decide
        have wide := screen.wide
        have some' : 0 < (t.bottom - t.top + 1) * t.cols := Int.mul_pos (by omega) (by omega)
        obtain ⟨target, bytes⟩ := @least_words t screen (i64 (-lines)) stays
        rw [if_neg (by omega)]
        apply stops
        unfold Apart
        rw [target, bytes, screen.row_address top (by omega)]
        omega
      · rw [i64_of_word (x := -lines) (by omega) (by omega), if_neg (by omega)]
        apply stops
        rw [apart_rows screen (by omega) (by omega) (by omega) (by omega) (by omega) (by omega)]
        omega
  cases ended : htkTermScrollOver strictCpy lines t with
  | ok result => exact absurd (ends.result ended) not_false
  | error fault => exact ⟨fault, rfl⟩

end Lines

theorem scrolledRows_isRows {t : CHtkTerm} (screen : Screen t) (first lines : Int) :
    Rows (withRows t (scrolledRows t first lines)) (scrolledRows t first lines) := by
  have isRows := screen.isRows
  have isBlank : (blankRow t).length = t.cols.toNat := List.length_replicate
  unfold scrolledRows
  apply isRows.withRows
  · apply isRows.uniform.onRegion
    split
    · exact Uniform.shiftUp isBlank _
    · exact Uniform.shiftDown isBlank _
  · apply length_onRegion
    split
    · exact length_shiftUp _ _
    · exact length_shiftDown _ _

/-! ## Inserting, deleting and scrolling lines -/

inductive LineOp
  | insert
  | delete
  | up
  | down
  deriving DecidableEq

def LineOp.final : LineOp → Char
  | .insert => 'L'
  | .delete => 'M'
  | .up => 'S'
  | .down => 'T'

def LineOp.lines (t : CHtkTerm) : LineOp → Int
  | .insert => i64 (-htkTermParam t 0 1)
  | .delete => htkTermParam t 0 1
  | .up => htkTermParam t 0 1
  | .down => i64 (-htkTermParam t 0 1)

def LineOp.first (t : CHtkTerm) : LineOp → Int
  | .insert => t.cy
  | .delete => t.cy
  | .up => t.top
  | .down => t.top

/-- `L` and `M` scroll the part of the region from the cursor down. -/
theorem scrollBelowOver_leaves {t : CHtkTerm} (memCpy : Copy) (lines : Int)
    (within : t.top ≤ t.cy ∧ t.cy ≤ t.bottom) {rows : List (List UInt64)}
    (leaves : Leaves (htkTermScrollOver memCpy lines) { t with top := t.cy }
      (withRows { t with top := t.cy } rows)) :
    Leaves (scrollBelowOver memCpy lines) t (withRows t rows) := by
  rw [← leaves_iff] at leaves ⊢
  unfold scrollBelowOver
  rw [ends_bind, ends_get, if_pos ⟨within.1, within.2⟩, ends_bind, ends_set, ends_bind]
  apply leaves.mono
  rintro _ s rfl
  rfl

theorem scrollBelowOver_fails {t : CHtkTerm} (memCpy : Copy) (lines : Int)
    (within : t.top ≤ t.cy ∧ t.cy ≤ t.bottom) {fault : Fault}
    (fails : htkTermScrollOver memCpy lines { t with top := t.cy } = .error fault) :
    scrollBelowOver memCpy lines t = .error fault := by
  have ends : Ends (fun e => e = fault) (fun _ _ => False) (scrollBelowOver memCpy lines) t := by
    unfold scrollBelowOver
    rw [ends_bind, ends_get, if_pos ⟨within.1, within.2⟩, ends_bind, ends_set, ends_bind]
    unfold Ends
    rw [fails]
  cases ended : scrollBelowOver memCpy lines t with
  | ok result => exact absurd (ends.result ended) not_false
  | error e => rw [ends.error ended]

section Operations

variable {t : CHtkTerm} (inside : InBounds t) (within : t.top ≤ t.cy ∧ t.cy ≤ t.bottom)
  (op : LineOp)

def LineOp.start (t : CHtkTerm) (op : LineOp) : CHtkTerm := { t with top := op.first t }

include inside

theorem LineOp.lines_word : -9223372036854775808 ≤ op.lines t := by
  have word := param_word inside.toScreen 0 1 (by decide) (by decide)
  obtain ⟨_, _, low, _⟩ := i64_spec (-htkTermParam t 0 1)
  cases op with
  | insert => exact low
  | delete => exact word.1
  | up => exact word.1
  | down => exact low

include within

theorem LineOp.start_screen : Screen (op.start t) := by
  have screen := inside.toScreen
  have above := inside.above
  cases op with
  | insert => exact { screen with top := above, region := within.2 }
  | delete => exact { screen with top := above, region := within.2 }
  | up => exact screen
  | down => exact screen

omit inside in
/-- The switch scrolls the rows from the operation's first one on. -/
theorem csiSwitchOver_leaves (memCpy : Copy) (m : Int) {rows : List (List UInt64)}
    (leaves : Leaves (htkTermScrollOver memCpy (op.lines t)) (op.start t)
      (withRows (op.start t) rows)) :
    Leaves (csiSwitchOver memCpy op.final (htkTermParam t 0 1) m) t (withRows t rows) := by
  cases op with
  | insert => exact scrollBelowOver_leaves memCpy _ within leaves
  | delete => exact scrollBelowOver_leaves memCpy _ within leaves
  | up => exact leaves
  | down => exact leaves

omit inside in
theorem csiSwitchOver_fails (memCpy : Copy) (m : Int) {fault : Fault}
    (fails : htkTermScrollOver memCpy (op.lines t) (op.start t) = .error fault) :
    csiSwitchOver memCpy op.final (htkTermParam t 0 1) m t = .error fault := by
  cases op with
  | insert => exact scrollBelowOver_fails memCpy _ within fails
  | delete => exact scrollBelowOver_fails memCpy _ within fails
  | up => exact fails
  | down => exact fails

end Operations

/-- What a control function that moves lines owes to a terminal, whatever `MemCpy` does
with ranges that overlap: the rows from `first` to the end of the region are scrolled,
and nothing else changes but the cursor, which goes back onto the screen. -/
def ScrollsRows (run : Copy → Term Unit) (t : CHtkTerm) (first lines : Int) (rest : CHtkTerm) :
    Prop :=
  ∀ memCpy, KeepsContract memCpy → ∃ t', Leaves (run memCpy) t t' ∧
    screenRows t' = scrolledRows t first lines ∧ { t' with cells := t.cells } = rest

/-- Scrolling, inserting and deleting lines do so if and only if the region has no more
rows than twice the count. -/
theorem line_operations_scroll_iff {t : CHtkTerm} (inside : InBounds t) :
    (∀ lines, -9223372036854775808 ≤ lines →
      (ScrollsRows (fun memCpy => htkTermScrollOver memCpy lines) t t.top lines t ↔
        Roomy t.top t.bottom lines)) ∧
    (t.isPrivate = false → t.top ≤ t.cy → t.cy ≤ t.bottom → ∀ op : LineOp,
      (ScrollsRows (fun memCpy => htkTermCsiOver memCpy op.final) t (op.first t) (op.lines t)
          (clampCursor t) ↔
        Roomy (op.first t) t.bottom (op.lines t))) := by
  have screen := inside.toScreen
  constructor
  · intro lines low
    constructor
    · intro scrolls
      by_contra crowded
      obtain ⟨t', leaves, _⟩ := scrolls strictCpy strictCpy_contract
      obtain ⟨fault, fails⟩ := scrollOver_overlaps screen low crowded
      rw [Leaves] at leaves
      dsimp only at leaves
      rw [fails] at leaves
      cases leaves
    · intro roomy memCpy keeps
      have leaves := scrollOver_leaves screen low keeps roomy
      exact ⟨_, leaves, (scrolledRows_isRows screen t.top lines).screenRows, rfl⟩
  · intro notPrivate above below op
    have within := And.intro above below
    have low := op.lines_word inside
    have started := op.start_screen inside within
    constructor
    · intro scrolls
      by_contra crowded
      obtain ⟨t', leaves, _⟩ := scrolls strictCpy strictCpy_contract
      obtain ⟨fault, fails⟩ := scrollOver_overlaps started low crowded
      have switched := csiSwitchOver_fails within op strictCpy (htkTermParam t 1 1) fails
      rw [← leaves_iff] at leaves
      unfold htkTermCsiOver at leaves
      rw [ends_bind, ends_get, if_neg (by rw [notPrivate]; decide), ends_bind, Ends,
        switched] at leaves
      exact leaves
    · intro roomy memCpy keeps
      have scrolled := scrollOver_leaves started low keeps roomy
      have leaves := csiSwitchOver_leaves within op memCpy (htkTermParam t 1 1) scrolled
      have isRows := scrolledRows_isRows screen (op.first t) (op.lines t)
      refine ⟨clampCursor (withRows t (scrolledRows t (op.first t) (op.lines t))), ?_,
        isRows.screenRows, rfl⟩
      rw [← leaves_iff] at leaves ⊢
      unfold htkTermCsiOver
      rw [ends_bind, ends_get, if_neg (by rw [notPrivate]; decide), ends_bind]
      apply leaves.mono
      rintro _ s rfl
      rfl

/-- On a screen of two rows every one of them is fine. -/
theorem line_operations_scroll_two_rows : ∃ t, htkTerminalNew 4 2 = .ok t ∧
    ScrollsRows (fun memCpy => htkTermCsiOver memCpy 'T') t 0 (-1) (clampCursor t) := by
  obtain ⟨t, isNew, inside⟩ := @new_inBounds 4 2 (by decide)
  have facts : t.isPrivate = false ∧ t.top ≤ t.cy ∧ t.cy ≤ t.bottom ∧
      Roomy (LineOp.down.first t) t.bottom (LineOp.down.lines t) ∧
      LineOp.down.first t = 0 ∧ LineOp.down.lines t = -1 := by
    cases isNew
    decide +kernel
  obtain ⟨notPrivate, above, below, roomy, isFirst, isLines⟩ := facts
  have scrolls := ((line_operations_scroll_iff inside).2 notPrivate above below .down).mpr roomy
  rw [isFirst, isLines] at scrolls
  exact ⟨t, isNew, scrolls⟩

/-- On three rows the two that go down by one overlap the place they go to. -/
theorem scroll_down_overlaps : ¬∀ (t : CHtkTerm), InBounds t → t.isPrivate = false →
    t.top ≤ t.cy → t.cy ≤ t.bottom → ∀ op : LineOp,
    ScrollsRows (fun memCpy => htkTermCsiOver memCpy op.final) t (op.first t) (op.lines t)
      (clampCursor t) := by
  intro always
  obtain ⟨t, isNew, inside⟩ := @new_inBounds 4 3 (by decide)
  have facts : t.isPrivate = false ∧ t.top ≤ t.cy ∧ t.cy ≤ t.bottom ∧
      (htkTermCsiOver strictCpy LineOp.down.final t).toOption = none := by
    cases isNew
    decide +kernel
  obtain ⟨notPrivate, above, below, fails⟩ := facts
  obtain ⟨t', leaves, _⟩ :=
    always t inside notPrivate above below .down strictCpy strictCpy_contract
  rw [Leaves] at leaves
  dsimp only at leaves
  rw [leaves] at fails
  cases fails

end Aholyc.Htk
