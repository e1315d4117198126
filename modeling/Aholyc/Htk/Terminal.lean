import Mathlib.Tactic.Common
import Aholyc.Lib.Hoare
import Aholyc.Text.Utf8

/-!
# The terminal control

`CHtkTerm` of lib/htk/terminal.hc: the screen buffer, the parser of the child's
output and its control functions. Every access of a screen cell is checked
against the block of cells, and one outside is a `Fault`. `I64` arithmetic
wraps; since wrapping respects sums and products, an expression is wrapped once.
-/

namespace Aholyc.Htk

open Aholyc.Lib.Hoare Aholyc.Text

def i64 (x : Int) : Int := x.bmod 18446744073709551616

def htkTermParams : Nat := 16

def termBlack : UInt64 := 0
def termWhite : UInt64 := 7

def termBold : UInt64 := 1
def termUnderline : UInt64 := 2
def termReverse : UInt64 := 4
def termItalic : UInt64 := 8
def termStrike : UInt64 := 16
def termDim : UInt64 := 32
def termBlink : UInt64 := 64

/-- The parser's states; `skip` swallows one byte of a charset selection. -/
inductive Parser
  | text
  | esc
  | csi
  | osc
  | skip
  deriving DecidableEq, Repr

structure Pen where
  fg : UInt64
  bg : UInt64
  attr : UInt64
  deriving DecidableEq

/-- `rgbTable` is the registry behind `TermColorRgb`, a global of lib/term. -/
structure CHtkTerm where
  cols : Int
  rows : Int
  cells : Option (List UInt64)
  cx : Int
  cy : Int
  savedX : Int
  savedY : Int
  top : Int
  bottom : Int
  pen : Pen
  state : Parser
  params : List Int
  nparams : Nat
  isPrivate : Bool
  oscEsc : Bool
  utf8 : List UInt8
  utf8Len : Nat
  cursorHidden : Bool
  rgbTable : List Nat
  deriving DecidableEq

inductive Fault
  /-- A cell outside the block is read or written. -/
  | outside (index : Int)
  /-- A function calls itself until no stack is left. -/
  | stack
  deriving DecidableEq

abbrev Term := StateT CHtkTerm (Except Fault)

/-! ## Blocks of cells -/

def readCell (index : Int) : Term UInt64 := do
  match (← get).cells with
  | none => throw (.outside index)
  | some cells =>
    if 0 ≤ index ∧ index < cells.length then
      pure (cells.getD index.toNat 0)
    else
      throw (.outside index)

def writeCell (index : Int) (cell : UInt64) : Term Unit := do
  let t ← get
  match t.cells with
  | none => throw (.outside index)
  | some cells =>
    if 0 ≤ index ∧ index < cells.length then
      set { t with cells := some (cells.set index.toNat cell) }
    else
      throw (.outside index)

/-- `MemCpy(dst + target, src + source, bytes)`: the addresses wrap, and a count below
zero is a huge one. The bytes are read before any is written. -/
def copyCells (dst src : List UInt64) (target source bytes : Int) : Except Fault (List UInt64) :=
  let d := i64 (target * 8)
  let s := i64 (source * 8)
  if 0 ≤ d ∧ 0 ≤ s ∧ 0 ≤ bytes ∧ d + bytes ≤ dst.length * 8 ∧ s + bytes ≤ src.length * 8 then
    .ok (dst.take (d / 8).toNat ++ (src.drop (s / 8).toNat).take (bytes / 8).toNat ++
      dst.drop ((d + bytes) / 8).toNat)
  else
    .error (.outside target)

def moveCells (target source bytes : Int) : Term Unit := do
  let t ← get
  match t.cells with
  | none => throw (.outside target)
  | some cells =>
    match copyCells cells cells target source bytes with
    | .ok moved => set { t with cells := some moved }
    | .error fault => throw fault

/-- The arguments of `MemCpy` on cells: target, source, and the number of bytes. -/
abbrev Copy := Int → Int → Int → Term Unit

/-! ## The screen buffer -/

def packCell (rune attr fg bg : UInt64) : UInt64 :=
  (rune &&& (0x1FFFFF : UInt64)) ||| ((attr &&& (0x7F : UInt64)) <<< (21 : UInt64)) |||
    ((fg &&& (0x3FFFF : UInt64)) <<< (28 : UInt64)) |||
    ((bg &&& (0x3FFFF : UInt64)) <<< (46 : UInt64))

def htkTermBlank (t : CHtkTerm) : UInt64 := packCell 0x20 0 t.pen.fg t.pen.bg

def htkTermClearRows (first last : Int) : Term Unit := do
  let t ← get
  let i := i64 (first * t.cols)
  let stop := i64 ((last + 1) * t.cols)
  forUp (fun i => writeCell i (htkTermBlank t)) i (stop - i).toNat

def htkTermClearRange (row first last : Int) : Term Unit := do
  let t ← get
  forUp (fun i => writeCell (i64 (row * t.cols + i)) (htkTermBlank t)) first
    (min last (t.cols - 1) + 1 - first).toNat

/-- The region [top, bottom] goes up for `lines > 0`, down for `lines < 0`. -/
def htkTermScrollOver (memCpy : Copy) (lines : Int) : Term Unit := do
  let t ← get
  let n := i64 (t.bottom - t.top + 1)
  let size := if lines < 0 then i64 (-lines) else lines
  let count := if size > n then n else size
  if lines > 0 then
    memCpy (i64 (t.top * t.cols)) (i64 ((t.top + count) * t.cols))
      (i64 ((n - count) * t.cols * 8))
    htkTermClearRows (i64 (t.bottom - count + 1)) t.bottom
  else if lines < 0 then
    memCpy (i64 ((t.top + count) * t.cols)) (i64 (t.top * t.cols))
      (i64 ((n - count) * t.cols * 8))
    htkTermClearRows t.top (i64 (t.top + count - 1))

def htkTermScroll : Int → Term Unit := htkTermScrollOver moveCells

def copyRows (old : List UInt64) (oldCols cols keep : Int) (fresh : List UInt64) (y : Int) :
    Nat → Except Fault (List UInt64)
  | 0 => .ok fresh
  | count + 1 =>
    match copyCells fresh old (i64 (y * cols)) (i64 (y * oldCols)) (i64 (keep * 8)) with
    | .ok fresh => copyRows old oldCols cols keep fresh (y + 1) count
    | .error fault => .error fault

def freshCells (cols rows : Int) : Except Fault (List UInt64) :=
  let block := (i64 (cols * rows * 8)).toNat / 8
  if i64 (cols * rows) ≤ block then
    .ok (List.replicate block (packCell 0x20 0 termWhite termBlack))
  else
    .error (.outside block)

def keptCells (t : CHtkTerm) (cols rows : Int) (fresh : List UInt64) :
    Except Fault (List UInt64) :=
  match t.cells with
  | none => .ok fresh
  | some old =>
    copyRows old t.cols cols (if cols < t.cols then cols else t.cols) fresh 0
      (min rows t.rows).toNat

def newScreen (cols rows : Int) : Term Unit := do
  let t ← get
  match freshCells cols rows with
  | .error fault => throw fault
  | .ok fresh =>
    match keptCells t cols rows fresh with
    | .error fault => throw fault
    | .ok cells =>
      set { t with
        cells := some cells
        cols := cols
        rows := rows
        top := 0
        bottom := rows - 1
        cx := if t.cx ≥ cols then cols - 1 else t.cx
        cy := if t.cy ≥ rows then rows - 1 else t.cy }

/-- `granted` says whether `MAlloc` gets its block; when it throws, the terminal is as
it was. -/
def htkTermResize (granted : Bool) (cols rows : Int) : Term Unit := do
  let t ← get
  let cols := if cols < 2 then 2 else cols
  let rows := if rows < 1 then 1 else rows
  if cols = t.cols ∧ rows = t.rows ∧ t.cells.isSome then
    pure ()
  else if granted then
    newScreen cols rows

/-! ## Output interpretation -/

def htkTermNewline : Term Unit := do
  let t ← get
  if t.cy = t.bottom then
    htkTermScroll 1
  else if t.cy < t.rows - 1 then
    set { t with cy := t.cy + 1 }

/-- A cursor that was left behind the last column goes to the next line. -/
def deferredWrap : Term Unit := do
  let t ← get
  if t.cx ≥ t.cols then
    set { t with cx := 0 }
    htkTermNewline

def htkTermPut (rune : UInt64) : Term Unit := do
  deferredWrap
  let t ← get
  writeCell (i64 (t.cy * t.cols + t.cx)) (packCell rune t.pen.attr t.pen.fg t.pen.bg)
  modify fun t => { t with cx := t.cx + 1 }

def htkTermParam (t : CHtkTerm) (index : Nat) (fallback : Int) : Int :=
  if index ≥ t.nparams ∨ t.params.getD index 0 = 0 then fallback else t.params.getD index 0

def termColor256 (index : Int) : UInt64 := 256 + UInt64.ofNat (index % 256).toNat

/-- A known colour keeps its handle, another one is put into the registry. -/
def termColorRgb (table : List Nat) (r g b : Int) : List Nat × UInt64 :=
  let rgb := (r % 256).toNat * 65536 + (g % 256).toNat * 256 + (b % 256).toNat
  match table.findIdx? (fun known => known == rgb) with
  | some i => (table, UInt64.ofNat (512 + i))
  | none => (table ++ [rgb], UInt64.ofNat (512 + table.length))

def sgrPen (pen : Pen) (p : Int) : Pen :=
  if p = 0 then ⟨termWhite, termBlack, 0⟩
  else if p = 1 then { pen with attr := pen.attr ||| termBold }
  else if p = 2 then { pen with attr := pen.attr ||| termDim }
  else if p = 3 then { pen with attr := pen.attr ||| termItalic }
  else if p = 4 then { pen with attr := pen.attr ||| termUnderline }
  else if p = 5 then { pen with attr := pen.attr ||| termBlink }
  else if p = 7 then { pen with attr := pen.attr ||| termReverse }
  else if p = 9 then { pen with attr := pen.attr ||| termStrike }
  else if p = 22 then { pen with attr := pen.attr &&& ~~~(termBold ||| termDim) }
  else if p = 23 then { pen with attr := pen.attr &&& ~~~termItalic }
  else if p = 24 then { pen with attr := pen.attr &&& ~~~termUnderline }
  else if p = 25 then { pen with attr := pen.attr &&& ~~~termBlink }
  else if p = 27 then { pen with attr := pen.attr &&& ~~~termReverse }
  else if p = 29 then { pen with attr := pen.attr &&& ~~~termStrike }
  else if 30 ≤ p ∧ p ≤ 37 then { pen with fg := UInt64.ofNat (p - 30).toNat }
  else if p = 39 then { pen with fg := termWhite }
  else if 40 ≤ p ∧ p ≤ 47 then { pen with bg := UInt64.ofNat (p - 40).toNat }
  else if p = 49 then { pen with bg := termBlack }
  else if 90 ≤ p ∧ p ≤ 97 then { pen with fg := UInt64.ofNat (p - 90 + 8).toNat }
  else if 100 ≤ p ∧ p ≤ 107 then { pen with bg := UInt64.ofNat (p - 100 + 8).toNat }
  else pen

def setColor (pen : Pen) (p : Int) (color : UInt64) : Pen :=
  if p = 38 then { pen with fg := color } else { pen with bg := color }

/-- The loop of `HtkTermSgr` over the parameters that are left, with the registry of
colours. A colour that is cut off ends it. -/
def sgrLoop (pen : Pen) (table : List Nat) : List Int → Pen × List Nat
  | [] => (pen, table)
  | p :: [] => (sgrPen pen p, table)
  | p :: mode :: more =>
    if p = 38 ∨ p = 48 then
      match more with
      | [] => (pen, table)
      | n :: rest =>
        if mode = 5 then
          sgrLoop (setColor pen p (termColor256 n)) table rest
        else if mode = 2 then
          match rest with
          | g :: b :: rest =>
            let color := termColorRgb table n g b
            sgrLoop (setColor pen p color.2) color.1 rest
          | _ => (pen, table)
        else
          (pen, table)
    else
      sgrLoop (sgrPen pen p) table (mode :: more)

def htkTermSgr : Term Unit :=
  modify fun t =>
    -- bare "m" means reset
    let n := if t.nparams = 0 then 1 else t.nparams
    let pen := sgrLoop t.pen t.rgbTable (t.params.take n)
    { t with nparams := n, pen := pen.1, rgbTable := pen.2 }

/-- A scroll of the region from the cursor's row down, for `L` and `M`. -/
def scrollBelowOver (memCpy : Copy) (lines : Int) : Term Unit := do
  let t ← get
  if t.cy ≥ t.top ∧ t.cy ≤ t.bottom then
    set { t with top := t.cy }
    htkTermScrollOver memCpy lines
    modify fun t' => { t' with top := t.top }

def eraseDisplay (n : Int) : Term Unit := do
  let t ← get
  if n = 0 then
    htkTermClearRange t.cy t.cx (t.cols - 1)
    if t.cy < t.rows - 1 then
      htkTermClearRows (t.cy + 1) (t.rows - 1)
  else if n = 1 then
    if t.cy > 0 then
      htkTermClearRows 0 (t.cy - 1)
    htkTermClearRange t.cy 0 t.cx
  else
    htkTermClearRows 0 (t.rows - 1)

def eraseLine (n : Int) : Term Unit := do
  let t ← get
  if n = 0 then
    htkTermClearRange t.cy t.cx (t.cols - 1)
  else if n = 1 then
    htkTermClearRange t.cy 0 t.cx
  else
    htkTermClearRange t.cy 0 (t.cols - 1)

def deleteChars (n : Int) : Term Unit := do
  let t ← get
  forUp (fun i => do
    if i64 (i + n) < t.cols then
      writeCell (i64 (t.cy * t.cols + i)) (← readCell (i64 (t.cy * t.cols + i + n)))
    else
      writeCell (i64 (t.cy * t.cols + i)) (htkTermBlank t)) t.cx (t.cols - t.cx).toNat

def insertBlanks (n : Int) : Term Unit := do
  let t ← get
  forDown (fun i => do
    if i64 (i - n) ≥ t.cx then
      writeCell (i64 (t.cy * t.cols + i)) (← readCell (i64 (t.cy * t.cols + i - n)))
    else
      writeCell (i64 (t.cy * t.cols + i)) (htkTermBlank t)) (t.cols - 1) (t.cols - t.cx).toNat

def regionOf (rows top bottom : Int) : Int × Int :=
  let top := if top < 0 then 0 else top
  let bottom := if bottom ≥ rows then rows - 1 else bottom
  if top ≥ bottom then (0, rows - 1) else (top, bottom)

def setRegion : Term Unit :=
  modify fun t =>
    let region := regionOf t.rows (i64 (htkTermParam t 0 1 - 1)) (i64 (htkTermParam t 1 t.rows - 1))
    { t with top := region.1, bottom := region.2, cx := 0, cy := region.1 }

/-- The switch of `HtkTermCsi`; `n` and `m` are its first two parameters. -/
def csiSwitchOver (memCpy : Copy) (final : Char) (n m : Int) : Term Unit :=
  match final with
  | 'A' => modify fun t => { t with cy := if i64 (t.cy - n) < 0 then 0 else i64 (t.cy - n) }
  | 'B' => modify fun t =>
      { t with cy := if i64 (t.cy + n) ≥ t.rows then t.rows - 1 else i64 (t.cy + n) }
  | 'C' => modify fun t =>
      { t with cx := if i64 (t.cx + n) ≥ t.cols then t.cols - 1 else i64 (t.cx + n) }
  | 'D' => modify fun t => { t with cx := if i64 (t.cx - n) < 0 then 0 else i64 (t.cx - n) }
  | 'G' => modify fun t => { t with cx := i64 (n - 1) }
  | 'd' => modify fun t => { t with cy := i64 (n - 1) }
  | 'H' => modify fun t => { t with cy := i64 (n - 1), cx := i64 (m - 1) }
  | 'f' => modify fun t => { t with cy := i64 (n - 1), cx := i64 (m - 1) }
  | 'J' => do eraseDisplay (htkTermParam (← get) 0 0)
  | 'K' => do eraseLine (htkTermParam (← get) 0 0)
  | 'L' => scrollBelowOver memCpy (i64 (-n))
  | 'M' => scrollBelowOver memCpy n
  | 'P' => deleteChars n
  | '@' => insertBlanks n
  | 'X' => do
    let t ← get
    htkTermClearRange t.cy t.cx (i64 (t.cx + n - 1))
  | 'S' => htkTermScrollOver memCpy n
  | 'T' => htkTermScrollOver memCpy (i64 (-n))
  | 'r' => setRegion
  | 's' => modify fun t => { t with savedX := t.cx, savedY := t.cy }
  | 'u' => modify fun t => { t with cx := t.savedX, cy := t.savedY }
  | 'm' => htkTermSgr
  | _ => pure ()

/-- The end of `HtkTermCsi`: the cursor goes back onto the screen. -/
def clampCursor (t : CHtkTerm) : CHtkTerm :=
  { t with
    cx := if t.cx < 0 then 0 else if t.cx ≥ t.cols then t.cols - 1 else t.cx
    cy := if t.cy < 0 then 0 else if t.cy ≥ t.rows then t.rows - 1 else t.cy }

def htkTermCsiOver (memCpy : Copy) (final : Char) : Term Unit := do
  let t ← get
  if t.isPrivate then
    if (final = 'h' ∨ final = 'l') ∧ htkTermParam t 0 0 = 25 then
      set { t with cursorHidden := final = 'l' }
  else
    csiSwitchOver memCpy final (htkTermParam t 0 1) (htkTermParam t 1 1)
    modify clampCursor

def htkTermCsi : Char → Term Unit := htkTermCsiOver moveCells

def escByte (byte : UInt8) : Term Unit := do
  let t ← get
  if byte = '['.toUInt8 then
    set { t with state := .csi, nparams := 0, params := t.params.set 0 0, isPrivate := false }
  else if byte = ']'.toUInt8 then
    set { t with state := .osc, oscEsc := false }
  else if byte = '7'.toUInt8 then
    set { t with savedX := t.cx, savedY := t.cy }
  else if byte = '8'.toUInt8 then
    set { t with cx := t.savedX, cy := t.savedY }
  else if byte = 'M'.toUInt8 then
    if t.cy = t.top then
      htkTermScroll (-1)
    else if t.cy > 0 then
      set { t with cy := t.cy - 1 }
  else if byte = 'D'.toUInt8 then
    htkTermNewline
  else if byte = 'E'.toUInt8 then
    set { t with cx := 0 }
    htkTermNewline
  else if byte = 'c'.toUInt8 then
    htkTermClearRows 0 (t.rows - 1)
    modify fun t => { t with cx := 0, cy := 0 }
  else if byte = '('.toUInt8 ∨ byte = ')'.toUInt8 ∨ byte = '#'.toUInt8 then
    set { t with state := .skip }

def csiDigit (byte : UInt8) (t : CHtkTerm) : CHtkTerm :=
  let n := if t.nparams = 0 then 1 else t.nparams
  { t with
    nparams := n
    params := t.params.set (n - 1) (i64 (t.params.getD (n - 1) 0 * 10 + byte.toNat - 48)) }

/-- The separator of the parameters of CSI; the ones beyond the array are run
into the last. -/
def csiSeparator (t : CHtkTerm) : CHtkTerm :=
  let n := if t.nparams = 0 then 1 else t.nparams
  if n < htkTermParams then
    { t with nparams := n + 1, params := t.params.set n 0 }
  else
    { t with nparams := n }

def oscByte (byte : UInt8) (t : CHtkTerm) : CHtkTerm :=
  { t with
    state := if byte = 7 ∨ t.oscEsc ∧ byte = '\\'.toUInt8 then .text else t.state
    oscEsc := byte = 0x1B }

def utf8Need (lead : UInt8) : Nat :=
  if lead &&& 0xF0 = 0xE0 then 3 else if lead &&& 0xF8 = 0xF0 then 4 else 2

def putDecoded (decoded : Option (Nat × Nat)) : Term Unit :=
  match decoded with
  | some (_, rune) => htkTermPut (UInt64.ofNat rune)
  | none => pure ()

/-- One more byte of the pending UTF-8 sequence. The counter goes back to 0 before the
rune is put; `htkTermPut` does not read it. -/
def utf8Byte (byte : UInt8) : Term Unit := do
  let t ← get
  let utf8 := t.utf8.set t.utf8Len byte
  if t.utf8Len + 1 ≥ utf8Need (utf8.getD 0 0) then
    set { t with utf8 := utf8, utf8Len := 0 }
    putDecoded (utf8DecodeRune (utf8.take (t.utf8Len + 1)))
  else
    set { t with utf8 := utf8, utf8Len := t.utf8Len + 1 }

def plainByte (byte : UInt8) : Term Unit := do
  let t ← get
  if byte ≥ 0xC0 then
    set { t with utf8 := t.utf8.set 0 byte, utf8Len := 1 }
  else if byte = 0x1B then
    set { t with state := .esc }
  else if byte = 10 ∨ byte = 11 ∨ byte = 12 then
    htkTermNewline
  else if byte = 13 then
    set { t with cx := 0 }
  else if byte = 8 then
    if t.cx > 0 then
      set { t with cx := t.cx - 1 }
  else if byte = 9 then
    set { t with cx := if (t.cx / 8 + 1) * 8 ≥ t.cols then t.cols - 1 else (t.cx / 8 + 1) * 8 }
  else if 0x20 ≤ byte ∧ byte < 0x7F then
    htkTermPut byte.toUInt64

def textByte (byte : UInt8) : Term Unit := do
  if (← get).utf8Len ≠ 0 then
    if byte &&& 0xC0 = 0x80 then
      utf8Byte byte
    else
      modify fun t => { t with utf8Len := 0 }
      plainByte byte
  else
    plainByte byte

/-- `HtkTermByte`; `stack` is the number of its calls the stack has room for. -/
def htkTermByte (byte : UInt8) : Nat → Term Unit
  | 0 => throw .stack
  | stack + 1 => do
    let t ← get
    match t.state with
    | .esc =>
      set { t with state := .text }
      escByte byte
    | .skip => set { t with state := .text }
    | .csi =>
      if '0'.toUInt8 ≤ byte ∧ byte ≤ '9'.toUInt8 then
        set (csiDigit byte t)
      else if byte = ';'.toUInt8 then
        set (csiSeparator t)
      else if byte = '?'.toUInt8 ∨ byte = '>'.toUInt8 ∨ byte = '='.toUInt8 ∨
          byte = '!'.toUInt8 then
        set { t with isPrivate := true }
      else if 0x40 ≤ byte ∧ byte ≤ 0x7E then
        set { t with state := .text }
        htkTermCsi (Char.ofUInt8 byte)
      else if byte < 0x20 then
        htkTermByte byte stack
    | .osc => set (oscByte byte t)
    | .text => textByte byte

/-! ## Runs -/

def emptyTerm : CHtkTerm where
  cols := 0
  rows := 0
  cells := none
  cx := 0
  cy := 0
  savedX := 0
  savedY := 0
  top := 0
  bottom := 0
  pen := ⟨termWhite, termBlack, 0⟩
  state := .text
  params := List.replicate htkTermParams 0
  nparams := 0
  isPrivate := false
  oscEsc := false
  utf8 := List.replicate 8 0
  utf8Len := 0
  cursorHidden := false
  rgbTable := []

/-- The terminal `HtkTerminalNew` makes when its memory is granted. -/
def htkTerminalNew (cols rows : Int) : Except Fault CHtkTerm :=
  match htkTermResize true cols rows emptyTerm with
  | .ok ended => .ok ended.2
  | .error fault => .error fault

inductive Event
  /-- A byte of the child process. -/
  | byte (byte : UInt8)
  /-- The window gets another size; `granted` is about the new block. -/
  | resize (granted : Bool) (cols rows : Int)

def step (stack : Nat) (t : CHtkTerm) (event : Event) : Except Fault CHtkTerm :=
  let handled :=
    match event with
    | .byte byte => htkTermByte byte stack t
    | .resize granted cols rows => htkTermResize granted cols rows t
  match handled with
  | .ok ended => .ok ended.2
  | .error fault => .error fault

def run (stack : Nat) (t : CHtkTerm) : List Event → Except Fault CHtkTerm
  | [] => .ok t
  | event :: events =>
    match step stack t event with
    | .ok t => run stack t events
    | .error fault => .error fault

end Aholyc.Htk
