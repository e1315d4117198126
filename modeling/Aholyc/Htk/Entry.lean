import Mathlib.Data.List.DropRight
import Aholyc.Term.Keys
import Aholyc.Text.Boundaries

/-!
# The text entry control (lib/htk/entry.hc)

The text is a sequence of bytes with a terminator behind it; the cursor, the anchor and
the first column shown are offsets beside it, kept in 32 bits. An access outside of the
text or to a text that is freed, a copy between two ranges that overlap, an offset that
its field cannot hold and memory that is refused are faults. `Field` is what the control
is for: code points in front of the cursor and behind it, and a mark at the other end of
the selection.
-/

namespace Aholyc.Htk.Entry

open Aholyc.Term (CTermEvent)
open Aholyc.Text (isTrailing utf8 utf8DecodeRune utf8EncodeRune encode)

inductive Fault where
  | outside (place : Nat)
  | overlap
  | freed (place : Nat)
  | truncated (value : Nat)
  | memory
  deriving DecidableEq, Repr

/-- A control of the kind `HTK_ENTRY`. `high` is the limit; `submit` tells if there is a function
for the Enter key. The functions that are called on a change do not touch the control. -/
structure HtkCtl where
  text : List UInt8
  cursor : Nat
  anchor : Int
  top : Nat
  high : Int
  readonly : Bool
  submit : Bool
  x : Int
  w : Int
  deriving DecidableEq, Repr

/-! ## The source -/

/-- What an `I32` is set to. Where the new value is an offset that the control already has, or lies
in front of one, nothing is to be checked. -/
def i32 (value : Nat) : Except Fault Nat :=
  if value < 2 ^ 31 then .ok value else .error (.truncated value)

def htkEntryNew (text : List UInt8) (limit : Int) : Except Fault HtkCtl := do
  let cursor ← i32 text.length
  pure { text, cursor, anchor := -1, top := 0, high := limit, readonly := false, submit := false,
         x := 0, w := 0 }

def byteAt (text : List UInt8) (i : Nat) : Except Fault UInt8 :=
  match text[i]? with
  | some byte => .ok byte
  | none => if i = text.length then .ok 0 else .error (.outside i)

/-- `Utf8DecodeRune (text + i, 4, &rune)`, with the terminator. -/
def decodeAt (text : List UInt8) (i : Nat) : Except Fault Nat :=
  if i ≤ text.length then
    match utf8DecodeRune (((text ++ [0]).drop i).take 4) with
    | some (consumed, _) => .ok consumed
    | none => .ok 0
  else .error (.outside i)

def htkTextInsert (granted : Bool) (rune : Int) (c : HtkCtl) : Except Fault HtkCtl :=
  if c.readonly then .ok c
  else if (utf8EncodeRune rune (some 4)).1 = 0 then .ok c
  else if c.high ≠ 0 ∧ c.text.length + (utf8EncodeRune rune (some 4)).1 > c.high then .ok c
  else if granted = false then .error .memory
  else if c.cursor > c.text.length then .error (.outside c.cursor)
  else do
    let text := c.text.take c.cursor ++ (utf8EncodeRune rune (some 4)).2 ++ c.text.drop c.cursor
    let cursor ← i32 (c.cursor + (utf8EncodeRune rune (some 4)).1)
    pure { c with text, cursor }

/-- `while (back > 0 && (text[back] & 0xC0) == 0x80) back--;` -/
def stepBackLoop (text : List UInt8) : Nat → Except Fault Nat
  | 0 => .ok 0
  | back + 1 => do
    if isTrailing (← byteAt text (back + 1)) then stepBackLoop text back else pure (back + 1)

def htkTextStepBack (text : List UInt8) (cursor : Nat) : Except Fault Nat :=
  if cursor = 0 then .ok 0
  else do pure (cursor - (← stepBackLoop text (cursor - 1)))

def htkTextStepAhead (c : HtkCtl) : Except Fault Nat := do
  let count ← decodeAt c.text c.cursor
  if count = 0 then
    if (← byteAt c.text c.cursor) ≠ 0 then pure 1 else pure 0
  else pure count

def htkTextDelete (place count : Nat) (c : HtkCtl) : Except Fault HtkCtl :=
  if c.readonly ∨ count < 1 ∨ place ≥ c.text.length then .ok c
  else if place + count > c.text.length then .error (.outside (place + count))
  else if count < c.text.length - (place + count) + 1 then .error .overlap
  else .ok { c with
    text := c.text.take place ++ c.text.drop (place + count)
    cursor := if c.cursor > place then place else c.cursor }

def htkTextSelected (c : HtkCtl) : Option (Nat × Nat) :=
  if c.anchor < 0 ∨ c.anchor = c.cursor then none
  else if c.anchor > c.cursor then some (c.cursor, c.anchor.toNat)
  else some (c.anchor.toNat, c.cursor)

def htkTextDeleteSelection (c : HtkCtl) : Except Fault (Bool × HtkCtl) :=
  match htkTextSelected c with
  | none => .ok (false, { c with anchor := -1 })
  | some (start, stop) => do
    let c ← htkTextDelete start (stop - start) { c with cursor := stop }
    pure (true, { c with cursor := start, anchor := -1 })

def hasMod (e : CTermEvent) (mod : Term.I64) : Bool := e.mods &&& mod ≠ 0

def htkTextMoveStart (e : CTermEvent) (c : HtkCtl) : HtkCtl :=
  if hasMod e Term.termModShift then
    if c.anchor < 0 then { c with anchor := c.cursor } else c
  else { c with anchor := -1 }

def termRuneNext (text : List UInt8) (i : Nat) : Except Fault Nat := do
  let consumed ← decodeAt text i
  if consumed = 0 then pure (i + 1) else pure (i + consumed)

def cursorLoop (text : List UInt8) : Nat → Nat → Except Fault Nat
  | 0, i => .ok i
  | want + 1, i => do
    if (← byteAt text i) = 0 then pure i
    else cursorLoop text want (← termRuneNext text i)

def htkEntryCursorAt (x : Int) (c : HtkCtl) : Except Fault HtkCtl := do
  let i ← cursorLoop c.text (x - c.x).toNat c.top
  pure { c with cursor := ← i32 i }

/-- The loop that draws, with the columns left: the place where it stops, its column and that of the
cursor. -/
def drawLoop (c : HtkCtl) : Nat → Nat → Nat → Nat → Except Fault (Nat × Nat × Nat)
  | 0, i, x, cursorAt => do
    let _ ← byteAt c.text i
    pure (i, x, cursorAt)
  | left + 1, i, x, cursorAt => do
    if (← byteAt c.text i) = 0 then pure (i, x, cursorAt)
    else drawLoop c left (← termRuneNext c.text i) (x + 1) (if i = c.cursor then x else cursorAt)

def htkEntryDraw (c : HtkCtl) : Except Fault HtkCtl := do
  let top := if c.cursor < c.top then c.cursor else c.top
  let top := if top > c.text.length then 0 else top
  let (i, x, cursorAt) ← drawLoop c c.w.toNat top 0 0
  let cursorAt := if c.cursor ≥ i then x else cursorAt
  if (cursorAt : Int) ≥ c.w then
    let step ← htkTextStepBack c.text c.cursor
    pure { c with top := ← i32 (top + step) }
  else pure { c with top := top }

/-- A loop of Ctrl-W: back over the code points until the byte that one starts with passes the
test. -/
def wordLoop (stops : UInt8 → Bool) (text : List UInt8) : Nat → Nat → Except Fault Nat
  | 0, start => .ok start
  | fuel + 1, start =>
    if start = 0 then .ok 0
    else do
      let step ← htkTextStepBack text start
      if stops (← byteAt text (start - step)) then pure start
      else wordLoop stops text fuel (start - step)

def wordStart (text : List UInt8) (cursor : Nat) : Except Fault Nat := do
  let start ← wordLoop (· > 0x20) text cursor cursor
  wordLoop (· ≤ 0x20) text start start

def deleteWord (c : HtkCtl) : Except Fault HtkCtl := do
  let (deleted, c) ← htkTextDeleteSelection c
  if deleted then pure c
  else
    let start ← wordStart c.text c.cursor
    let c ← htkTextDelete start (c.cursor - start) c
    pure { c with cursor := start }

def backspace (c : HtkCtl) : Except Fault HtkCtl := do
  let (deleted, c) ← htkTextDeleteSelection c
  if deleted then pure c
  else
    let step ← htkTextStepBack c.text c.cursor
    htkTextDelete (c.cursor - step) step c

def deleteKey (c : HtkCtl) : Except Fault HtkCtl := do
  let (deleted, c) ← htkTextDeleteSelection c
  if deleted then pure c
  else
    let step ← htkTextStepAhead c
    htkTextDelete c.cursor step c

def typed (granted : Bool) (rune : Int) (c : HtkCtl) : Except Fault HtkCtl := do
  let (_, c) ← htkTextDeleteSelection c
  htkTextInsert granted rune c

def htkEntryKey (granted : Bool) (e : CTermEvent) (c : HtkCtl) : Except Fault (Bool × HtkCtl) :=
  if e.key = 0x61 ∧ hasMod e Term.termModCtrl then
    .ok (true, { htkTextMoveStart e c with cursor := 0 })
  else if e.key = 0x65 ∧ hasMod e Term.termModCtrl then do
    pure (true, { htkTextMoveStart e c with cursor := ← i32 c.text.length })
  else if e.key = 0x77 ∧ hasMod e Term.termModCtrl then do pure (true, ← deleteWord c)
  else if e.key = Term.termKeyLeft then do
    let step ← htkTextStepBack c.text c.cursor
    pure (true, { htkTextMoveStart e c with cursor := c.cursor - step })
  else if e.key = Term.termKeyRight then do
    let step ← htkTextStepAhead c
    pure (true, { htkTextMoveStart e c with cursor := ← i32 (c.cursor + step) })
  else if e.key = Term.termKeyHome then
    .ok (true, { htkTextMoveStart e c with cursor := 0 })
  else if e.key = Term.termKeyEnd then do
    pure (true, { htkTextMoveStart e c with cursor := ← i32 c.text.length })
  else if e.key = Term.termKeyBackspace then do pure (true, ← backspace c)
  else if e.key = Term.termKeyDelete then do pure (true, ← deleteKey c)
  else if e.key = Term.termKeyEnter ∧ c.submit then .ok (true, c)
  else if BitVec.sle 0x20 e.key ∧ BitVec.slt e.key 0x110000 ∧ e.mods = 0 then do
    pure (true, ← typed granted e.key.toInt c)
  else .ok (false, c)

/-- The text for `HtkSetText`: bytes of the caller, or a place in the text of the control. -/
inductive Given where
  | bytes (text : List UInt8)
  | own (place : Nat)

/-- `HtkFreeText`, and then `StrNew`, which reads what it is given. The text of an entry is never
`htk_empty` here, so it is freed. -/
def htkSetText (granted : Bool) (given : Given) (c : HtkCtl) : Except Fault HtkCtl :=
  match given with
  | .own place => .error (.freed place)
  | .bytes text => if granted = false then .error .memory else .ok { c with text }

/-- What comes to the control: a key, the left mouse button pressed, moved or released in a column,
a new text, and a redraw. `granted` tells if `MAlloc` has the memory for a copy. -/
inductive Event where
  | key (e : CTermEvent) (granted : Bool)
  | press (x : Int)
  | drag (x : Int)
  | release (x : Int)
  | setText (given : Given) (granted : Bool)
  | draw

def entryStep (c : HtkCtl) : Event → Except Fault HtkCtl
  | .key e granted => do pure (← htkEntryKey granted e c).2
  | .press x => do
    let c ← htkEntryCursorAt x c
    pure { c with anchor := c.cursor }
  | .drag x => htkEntryCursorAt x c
  | .release x => do
    let c ← htkEntryCursorAt x c
    pure (if c.anchor = c.cursor then { c with anchor := -1 } else c)
  | .setText given granted => htkSetText granted given c
  | .draw => htkEntryDraw c

/-! ## What it is for -/

/-- Code points in front of the cursor and behind it; the mark counts code points. -/
structure Field where
  before : List Char
  after : List Char
  mark : Option Nat
  deriving DecidableEq

namespace Field

def text (f : Field) : List Char := f.before ++ f.after

def put (place : Nat) (f : Field) : Field :=
  { f with before := f.text.take place, after := f.text.drop place }

def moveStart (e : CTermEvent) (f : Field) : Field :=
  { f with mark :=
      if hasMod e Term.termModShift then some (f.mark.getD f.before.length) else none }

def selection (f : Field) : Option (Nat × Nat) :=
  match f.mark with
  | none => none
  | some mark =>
    if mark = f.before.length then none
    else some (min mark f.before.length, max mark f.before.length)

/-- The code points between two places are removed, and the cursor stays there. -/
def cut (readonly : Bool) (start stop : Nat) (f : Field) : Field where
  before := f.text.take start
  after := if readonly then f.text.drop start else f.text.drop stop
  mark := none

/-- Where the last word in front of the cursor starts; the blanks behind it belong to it. -/
def wordPlace (f : Field) : Nat :=
  ((f.before.rdropWhile (·.val ≤ 0x20)).rdropWhile (·.val > 0x20)).length

/-- A code point in front of the cursor, unless the text gets too long. -/
def insert (readonly : Bool) (limit : Int) (rune : Int) (f : Field) : Field :=
  let ch := Char.ofNat rune.toNat
  if readonly ∨ (ch.val.toNat : Int) ≠ rune ∨
      limit ≠ 0 ∧ (encode f.text).length + (String.utf8EncodeChar ch).length > limit then f
  else { f with before := f.before ++ [ch] }

def delete (readonly : Bool) (places : Nat × Nat) (f : Field) : Field :=
  match f.selection with
  | some (start, stop) => f.cut readonly start stop
  | none => f.cut readonly places.1 places.2

def erases (e : CTermEvent) : Bool := e.key = 0x77 && hasMod e Term.termModCtrl

def types (e : CTermEvent) : Bool :=
  BitVec.sle 0x20 e.key && BitVec.slt e.key 0x110000 && decide (e.mods = 0)

def removal (e : CTermEvent) (f : Field) : Option (Nat × Nat) :=
  let last := f.before.length
  if erases e then some (f.selection.getD (f.wordPlace, last))
  else if e.key = Term.termKeyBackspace then some (f.selection.getD (last - 1, last))
  else if e.key = Term.termKeyDelete then some (f.selection.getD (last, last + 1))
  else if types e then f.selection
  else none

def key (readonly : Bool) (limit : Int) (e : CTermEvent) (f : Field) : Field :=
  let last := f.before.length
  if e.key = 0x61 ∧ hasMod e Term.termModCtrl ∨ e.key = Term.termKeyHome then
    (f.moveStart e).put 0
  else if e.key = 0x65 ∧ hasMod e Term.termModCtrl ∨ e.key = Term.termKeyEnd then
    (f.moveStart e).put f.text.length
  else if erases e then f.delete readonly (f.wordPlace, last)
  else if e.key = Term.termKeyLeft then (f.moveStart e).put (last - 1)
  else if e.key = Term.termKeyRight then (f.moveStart e).put (last + 1)
  else if e.key = Term.termKeyBackspace then
    if readonly ∧ f.selection = none then { f with mark := none }
    else f.delete readonly (last - 1, last)
  else if e.key = Term.termKeyDelete then f.delete readonly (last, last + 1)
  else if types e then (f.delete readonly (last, last)).insert readonly limit e.key.toInt
  else f

/-- What is removed is longer than what is moved up, with the terminator. -/
def Apart (readonly : Bool) (f : Field) (places : Option (Nat × Nat)) : Prop :=
  ∀ start stop, places = some (start, stop) →
    readonly = true ∨ stop ≤ start ∨ f.text.length ≤ start ∨
      (encode (f.text.drop stop)).length < (encode ((f.text.take stop).drop start)).length

end Field

structure Abs (c : HtkCtl) (f : Field) : Prop where
  text : c.text = encode f.text
  plain : 0 ∉ c.text
  cursor : c.cursor = (encode f.before).length
  unmarked : f.mark = none → c.anchor = -1
  marked : ∀ mark, f.mark = some mark →
    mark ≤ f.text.length ∧ c.anchor = (encode (f.text.take mark)).length

/-- The text is valid, and the cursor and the anchor are between its code points. -/
structure Valid (c : HtkCtl) : Prop where
  text : utf8.Text c.text
  plain : 0 ∉ c.text
  cursor : utf8.Boundary c.text c.cursor
  anchor : c.anchor = -1 ∨ ∃ place : Nat, c.anchor = place ∧ utf8.Boundary c.text place

/-- The texts of the caller are valid. -/
def Event.Given : Event → Prop
  | .setText (.bytes text) _ => utf8.Text text ∧ 0 ∉ text
  | _ => True

def columnPlace (c : HtkCtl) (f : Field) (x : Int) (place : Nat) : Prop :=
  ∃ top ≤ f.text.length, c.top = (encode (f.text.take top)).length ∧
    place = min (top + (x - c.x).toNat) f.text.length

def SteadyColumn (c : HtkCtl) (x : Int) : Prop :=
  utf8.Boundary c.text c.top ∧ ∀ f, Abs c f → ∀ place, columnPlace c f x place →
    (encode (f.text.take place)).length < 2 ^ 31

/-- What has to hold before an event: Right is not pressed at the end; what a key removes is longer
than what is behind it; there is memory for a key that types; the mouse is used while the first
column shows a code point; a text of the caller is set, in which cursor and anchor are still between
code points, and there is memory for it. The cursor comes to no place from 2^31 on, and is not right
in front of it when the control is drawn. -/
def Steady (c : HtkCtl) : Event → Prop
  | .key e granted => ∀ f, Abs c f →
    (e.key = Term.termKeyRight → f.after ≠ []) ∧ f.Apart c.readonly (f.removal e) ∧
      (Field.types e = true → granted = true) ∧
        (encode (f.key c.readonly c.high e).before).length < 2 ^ 31
  | .press x | .drag x | .release x => SteadyColumn c x
  | .setText (.bytes text) granted => granted = true ∧ utf8.Boundary text c.cursor ∧
    (c.anchor = -1 ∨ ∃ place : Nat, c.anchor = place ∧ utf8.Boundary text place)
  | .setText (.own _) _ => False
  | .draw => c.cursor + 4 < 2 ^ 31

def Edits (c : HtkCtl) : Event → HtkCtl → Prop
  | .key e _, c' => ∀ f, Abs c f → Abs c' (f.key c.readonly c.high e)
  | .press x, c' => ∀ f, Abs c f → ∃ place, columnPlace c f x place ∧
    Abs c' { f.put place with mark := some place }
  | .drag x, c' => ∀ f, Abs c f → ∃ place, columnPlace c f x place ∧ Abs c' (f.put place)
  | .release x, c' => ∀ f, Abs c f → ∃ place, columnPlace c f x place ∧
    Abs c' { f.put place with mark := if f.mark = some place then none else f.mark }
  | .setText given _, c' => ∃ text, given = .bytes text ∧ c' = { c with text }
  | .draw, c' => c' = { c with top := c'.top }

def Limited (c : HtkCtl) : Event → HtkCtl → Prop
  | .key _ _, c' => 0 < c.high → (c'.text.length : Int) ≤ max (c.text.length : Int) c.high
  | _, _ => True

/-- In the whole run no event is a fault, each does what it does on code points, and the control is
valid before and behind it. -/
def Kept : HtkCtl → List Event → Prop
  | c, [] => Valid c
  | c, event :: events => Valid c ∧
    ∃ c', entryStep c event = .ok c' ∧ Edits c event c' ∧ Limited c event c' ∧ Kept c' events

def AllSteady : HtkCtl → List Event → Prop
  | _, [] => True
  | c, event :: events =>
    Steady c event ∧ ∀ c', entryStep c event = .ok c' → AllSteady c' events

end Aholyc.Htk.Entry
