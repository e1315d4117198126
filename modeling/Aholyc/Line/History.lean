import Mathlib.Algebra.Order.Group.Nat
import Aholyc.Lib.Newest

/-!
# The history pool (lib/line/defaults.hc)

The entries of a history lie back to back in a pool, each with a line feed behind it.
Slices are offsets into the pool. An operation has no result where it would read or
write outside the pool or the table of slices.
-/

namespace Aholyc.Line

open Aholyc.Lib

abbrev Bytes := List UInt8

def newline : UInt8 := 0x0A

structure CStrs where
  a : Nat
  b : Nat
  deriving DecidableEq, Repr

def CStrs.len (slice : CStrs) : Nat := slice.b - slice.a

/-- A history in storage of its own: the pool has `capacity` bytes, and the table `max` slices. -/
structure CLineHistory where
  pool : Bytes
  used : Nat
  entries : List CStrs
  count : Nat
  deriving DecidableEq, Repr

namespace CLineHistory

def capacity (history : CLineHistory) : Nat := history.pool.length

def max (history : CLineHistory) : Nat := history.entries.length

def bytes (history : CLineHistory) (slice : CStrs) : Bytes :=
  (history.pool.drop slice.a).take slice.len

end CLineHistory

/-! ## The source -/

def lineHistoryInit (pool : Bytes) (entries : List CStrs) : CLineHistory := ⟨pool, 0, entries, 0⟩

def lineMoveBytes (dst src count : Nat) (buffer : Bytes) : Option Bytes :=
  moveLoop some dst src count buffer

/-- The slice without the bytes in front of the pool's new start. -/
def rebase (first : Nat) (slice : CStrs) : Option CStrs :=
  if first ≤ slice.a then some ⟨slice.a - first, slice.b - first⟩ else none

def lineHistoryDrop (history : CLineHistory) : Option CLineHistory := do
  let oldest ← history.entries[0]?
  let first := oldest.len + 1
  let pool ← lineMoveBytes 0 first (history.used - first) history.pool
  let entries ← moveLoop (rebase first) 0 1 (history.count - 1) history.entries
  pure ⟨pool, history.used - first, entries, history.count - 1⟩

def roomLoop (length : Nat) : Nat → CLineHistory → Option CLineHistory
  | 0, history =>
    if history.count = history.max ∨ history.used + length + 1 > history.capacity then none
    else some history
  | n + 1, history =>
    if history.count = history.max ∨ history.used + length + 1 > history.capacity then
      (lineHistoryDrop history).bind (roomLoop length n)
    else some history

/-- `StrsEquals (&entries[count - 1], text)`, if there is an entry. -/
def repeats (history : CLineHistory) (text : Bytes) : Option Bool :=
  if history.count = 0 then some false
  else (history.entries[history.count - 1]?).map fun slice => history.bytes slice = text

def copyTo (pool : Bytes) (start : Nat) (text : Bytes) : Option Bytes :=
  if start + text.length ≤ pool.length then
    some (pool.take start ++ text ++ pool.drop (start + text.length))
  else none

def append (text : Bytes) (history : CLineHistory) : Option CLineHistory := do
  let pool ← copyTo history.pool history.used (text ++ [newline])
  if history.count < history.max then
    pure ⟨pool, history.used + text.length + 1,
      history.entries.set history.count ⟨history.used, history.used + text.length⟩,
      history.count + 1⟩
  else none

def lineHistoryAddStrs (text : Bytes) (history : CLineHistory) : Option CLineHistory :=
  if text.length = 0 ∨ text.length + 1 > history.capacity then some history
  else (repeats history text).bind fun same =>
    if same then some history
    else (roomLoop text.length history.count history).bind (append text)

def cString (text : Bytes) : Bytes := text.takeWhile (· ≠ 0)

def lineHistoryAdd (text : Option Bytes) (history : CLineHistory) : Option CLineHistory :=
  match text with
  | none => some history
  | some text => lineHistoryAddStrs (cString text) history

def behindLine (rest : Bytes) : Bytes := (rest.dropWhile (· ≠ newline)).drop 1

theorem behindLine_length {byte : UInt8} {rest : Bytes} :
    (behindLine (byte :: rest)).length < (byte :: rest).length := by
  unfold behindLine
  have shorter := (List.dropWhile_sublist (· ≠ newline) (l := rest)).length_le
  rw [List.length_drop, List.length_cons]
  by_cases isLine : byte = newline
  · rw [isLine, List.dropWhile_cons_of_neg (by decide), List.length_cons]
    omega
  · rw [List.dropWhile_cons_of_pos (by simpa using isLine)]
    omega

def loadLoop : Bytes → CLineHistory → Option CLineHistory
  | [], history => some history
  | byte :: rest, history =>
    (lineHistoryAddStrs ((byte :: rest).takeWhile (· ≠ newline)) history).bind
      (loadLoop (behindLine (byte :: rest)))
termination_by rest => rest.length
decreasing_by exact behindLine_length

def lineHistoryLoad (data : Option Bytes) (history : CLineHistory) : Option CLineHistory :=
  match data with
  | none => some history
  | some data => loadLoop data history

def lineHistorySave (history : CLineHistory) : Bytes := history.pool.take history.used

inductive HistoryCall where
  | add (text : Option Bytes)
  | load (data : Option Bytes)

def HistoryCall.run (history : CLineHistory) : HistoryCall → Option CLineHistory
  | .add text => lineHistoryAdd text history
  | .load data => lineHistoryLoad data history

def historyRun (history : CLineHistory) (calls : List HistoryCall) : Option CLineHistory :=
  calls.foldlM HistoryCall.run history

/-! ## What it is for -/

def fileLines : Bytes → List Bytes
  | [] => []
  | byte :: rest => (byte :: rest).takeWhile (· ≠ newline) :: fileLines (behindLine (byte :: rest))
termination_by rest => rest.length
decreasing_by exact behindLine_length

def HistoryCall.texts : HistoryCall → List Bytes
  | .add none | .load none => []
  | .add (some text) => [cString text]
  | .load (some data) => fileLines data

/-- The texts that are accepted: neither empty, nor like their predecessor, nor too long. -/
def offer (capacity : Nat) (accepted : List Bytes) (text : Bytes) : List Bytes :=
  if text = [] ∨ text.length + 1 > capacity ∨ accepted.getLast? = some text then accepted
  else accepted ++ [text]

def acceptedOf (capacity : Nat) (texts : List Bytes) : List Bytes :=
  texts.foldl (offer capacity) []

def fileOf (texts : List Bytes) : Bytes := texts.flatMap (· ++ [newline])

def fits (capacity max : Nat) (texts : List Bytes) : Bool :=
  decide (texts.length ≤ max) && decide ((fileOf texts).length ≤ capacity)

def slicesFrom : Nat → List Bytes → List CStrs
  | _, [] => []
  | start, text :: texts =>
    ⟨start, start + text.length⟩ :: slicesFrom (start + text.length + 1) texts

structure Holds (history : CLineHistory) (texts : List Bytes) : Prop where
  count : history.count = texts.length
  used : history.used = (fileOf texts).length
  count_le : history.count ≤ history.max
  used_le : history.used ≤ history.capacity
  pool : history.pool.take history.used = fileOf texts
  entries : history.entries.take history.count = slicesFrom 0 texts

def CLineHistory.texts (history : CLineHistory) : List Bytes :=
  (history.entries.take history.count).map history.bytes

/-- Loaded into an empty history of the same size, the saved file gives the same entries. -/
def RoundTrips (history : CLineHistory) : Prop :=
  ∀ (pool : Bytes) (entries : List CStrs),
    pool.length = history.capacity → entries.length = history.max →
      ∃ loaded, lineHistoryLoad (some (lineHistorySave history)) (lineHistoryInit pool entries) =
        some loaded ∧ loaded.texts = history.texts

/-- The entries are the longest suffix of the accepted texts that fits, and can be saved. -/
structure Exact (pool : Bytes) (entries : List CStrs) (calls : List HistoryCall)
    (history : CLineHistory) : Prop where
  holds : Holds history history.texts
  isSuffix : history.texts <:+ acceptedOf pool.length (calls.flatMap HistoryCall.texts)
  fits : fits pool.length entries.length history.texts = true
  longest : ∀ suffix, suffix <:+ acceptedOf pool.length (calls.flatMap HistoryCall.texts) →
    Line.fits pool.length entries.length suffix = true → suffix.length ≤ history.texts.length
  roundTrips : RoundTrips history

end Aholyc.Line
