import Mathlib.Algebra.Group.Nat.Defs
import Aholyc.Lib.Probing

/-!
# The hash table (lib/data/ht.hc)

A slot of the table is a key with its value, or empty: its key is NULL. Keys
are compared by their bytes, so a key is what it points to. What does not come
to an end is `none`: an access outside the block of slots, and a probe that
goes round for ever.
-/

namespace Aholyc.Ht

open Aholyc.Lib.Probing

structure CHashEntry (κ ν : Type) where
  key : κ
  value : ν
  deriving DecidableEq, Repr

/-- `entries` is the allocated block. `capacity` is kept apart from it, as in
the source. -/
structure CHashTable (κ ν : Type) where
  entries : Option (List (Option (CHashEntry κ ν)))
  capacity : Nat
  count : Nat
  deriving DecidableEq, Repr

/-- How a function ends: it returns, or an allocation in it throws. -/
inductive Ended (κ ν α : Type) where
  | returned (table : CHashTable κ ν) (result : α)
  | thrown (table : CHashTable κ ν)
  deriving DecidableEq, Repr

def htHash (key : List UInt8) : UInt64 :=
  let hash := key.foldl (fun hash ch => (hash ^^^ ch.toUInt64) * 1099511628211) 1469598103934665603
  let hash := (hash ^^^ hash >>> 33) * 0xff51afd7ed558ccd
  let hash := (hash ^^^ hash >>> 33) * 0xc4ceb9fe1a85ec53
  hash ^^^ hash >>> 33

variable {κ ν : Type}

def Ended.andThen {α β : Type} (next : CHashTable κ ν → Option (Ended κ ν β)) :
    Ended κ ν α → Option (Ended κ ν β)
  | .returned table _ => next table
  | .thrown table => some (.thrown table)

/-- The loop of `HtRoundCapacity`. A capacity above 2^62 has no power of two in
an I64, and the loop does not end. -/
def roundLoop (capacity : Nat) : Nat → Nat → Option Nat
  | 0, _ => none
  | fuel + 1, result => if result < capacity then roundLoop capacity fuel (result * 2) else some result

def htRoundCapacity (capacity : Nat) : Option Nat := roundLoop capacity 60 8

def entrySize : Nat := 16

/-- A block of `size` bytes, as slots. The I64 size may have wrapped around: a
negative one gets an empty block, and clearing it writes far behind the end. -/
def cAlloc (granted : Bool) (size : Nat) : Option (Option (List (Option (CHashEntry κ ν)))) :=
  if !granted then some none
  else if size % 2 ^ 64 ≥ 2 ^ 63 then none
  else some (some (List.replicate (size % 2 ^ 64 / entrySize) none))

def htInitCapacity (granted : Bool) (table : CHashTable κ ν) (capacity : Int) :
    Option (Ended κ ν Unit) := do
  let rounded ← htRoundCapacity (if capacity < 8 then 8 else capacity.toNat)
  match ← cAlloc granted (rounded * entrySize) with
  | none => return .thrown { table with capacity := rounded }
  | some slots => return .returned { entries := some slots, capacity := rounded, count := 0 } ()

def htInit (granted : Bool) (table : CHashTable κ ν) : Option (Ended κ ν Unit) :=
  htInitCapacity granted table 8

def after (mask index : Nat) : Nat := (index + 1) &&& mask

def i64Sub (a b : Nat) : Nat := (a + 2 ^ 64 - b) % 2 ^ 64

section
variable [DecidableEq κ] (hash : κ → UInt64)

def home (mask : Nat) (key : κ) : Nat := (hash key).toNat &&& mask

def htFind (table : CHashTable κ ν) (key : Option κ) : Option (Option Nat) :=
  match table.entries, key with
  | some slots, some key => do
      let mask := table.capacity - 1
      let index ← scan (after mask) (fun slot => slot.all fun entry => entry.key = key) slots
        table.capacity (home hash mask key)
      return if (slots[index]?.join).isSome then some index else none
  | _, _ => some none

def htGet (table : CHashTable κ ν) (key : Option κ) : Option (Option ν) := do
  let index ← htFind hash table key
  return index.bind fun index => ((table.entries.getD [])[index]?.join).map (·.value)

def freeSlot (slots : List (Option (CHashEntry κ ν))) (capacity : Nat) (key : κ) : Option Nat :=
  scan (after (capacity - 1)) Option.isNone slots capacity (home hash (capacity - 1) key)

def rehash (capacity : Nat) : List (Option (CHashEntry κ ν)) →
    List (Option (CHashEntry κ ν)) × Nat → Option (List (Option (CHashEntry κ ν)) × Nat)
  | [], new => some new
  | none :: rest, new => rehash capacity rest new
  | some entry :: rest, (slots, count) => do
      let index ← freeSlot hash slots capacity entry.key
      rehash capacity rest (slots.set index (some entry), count + 1)

def htResize (granted : Bool) (table : CHashTable κ ν) (capacity : Nat) :
    Option (Ended κ ν Unit) := do
  let old := table.entries.getD []
  let fresh ← htInitCapacity granted table capacity
  fresh.andThen fun fresh =>
    if table.capacity > old.length then none
    else do
      let (slots, count) ← rehash hash fresh.capacity (old.take table.capacity)
        (fresh.entries.getD [], fresh.count)
      return .returned { fresh with entries := some slots, count := count } ()

/-- The end of `HtPut`: the key is new and there is a slot for it. -/
def insert (table : CHashTable κ ν) (key : κ) (value : ν) : Option (Ended κ ν Bool) := do
  let slots ← table.entries
  let index ← freeSlot hash slots table.capacity key
  return .returned { table with
    entries := some (slots.set index (some ⟨key, value⟩))
    count := table.count + 1 } true

def setValue (value : ν) (slot : Option (CHashEntry κ ν)) : Option (CHashEntry κ ν) :=
  slot.map fun entry => { entry with value := value }

def htPut (granted : Bool) (table : CHashTable κ ν) (key : Option κ) (value : ν) :
    Option (Ended κ ν Bool) :=
  match key with
  | none => some (.returned table false)
  | some key => do
      let ready ← if table.entries.isNone then htInit granted table
        else some (.returned table ())
      ready.andThen fun table => do
        match ← htFind hash table (some key) with
        | some index =>
            return .returned { table with
              entries := table.entries.map fun slots => slots.modify index (setValue value) } false
        | none =>
            let grown ← if (table.count + 1) * 4 > table.capacity * 3 then
                htResize hash granted table (table.capacity * 2)
              else some (.returned table ())
            grown.andThen fun table => insert hash table key value

def shiftBack (mask : Nat) : Nat → List (Option (CHashEntry κ ν)) → Nat → Nat →
    Option (List (Option (CHashEntry κ ν)) × Nat)
  | 0, _, _, _ => none
  | fuel + 1, slots, hole, scan =>
      match slots[scan]? with
      | none => none
      | some none => some (slots, hole)
      | some (some entry) =>
          let home := home hash mask entry.key
          if i64Sub scan home &&& mask > i64Sub hole home &&& mask then
            shiftBack mask fuel (slots.set hole (some entry)) scan (after mask scan)
          else shiftBack mask fuel slots hole (after mask scan)

def htDelete (table : CHashTable κ ν) (key : Option κ) : Option (CHashTable κ ν × Bool) := do
  match ← htFind hash table key with
  | none => return (table, false)
  | some index =>
      let mask := table.capacity - 1
      let (slots, hole) ← shiftBack hash mask table.capacity (table.entries.getD []) index
        (after mask index)
      return ({ table with entries := some (slots.set hole none), count := table.count - 1 }, true)

end

def htClear (table : CHashTable κ ν) : Option (CHashTable κ ν) :=
  match table.entries with
  | none => some { table with count := 0 }
  | some slots =>
      if table.capacity > slots.length then none
      else some { table with
        entries := some (List.replicate table.capacity none ++ slots.drop table.capacity)
        count := 0 }

def htFini (_ : CHashTable κ ν) : CHashTable κ ν := ⟨none, 0, 0⟩

def nextLoop (slots : List (Option (CHashEntry κ ν))) (capacity : Nat) :
    Nat → Nat → Option (Option Nat)
  | 0, _ => none
  | fuel + 1, index =>
      if index < capacity then
        match slots[index]? with
        | none => none
        | some (some _) => some (some index)
        | some none => nextLoop slots capacity fuel (index + 1)
      else some none

def htNext (table : CHashTable κ ν) (index : Nat) : Option (Option Nat) :=
  nextLoop (table.entries.getD []) table.capacity (table.capacity - index + 1) index

/-- The indexes a traversal visits: it starts at 0 and goes on behind each. -/
def traverse (table : CHashTable κ ν) : Nat → Nat → Option (List Nat)
  | 0, _ => none
  | fuel + 1, index => do
      match ← htNext table index with
      | none => return []
      | some found =>
          let rest ← traverse table fuel (found + 1)
          return found :: rest

end Aholyc.Ht
